import ProviderGraph.Proofs.Identity.Evolution

/-!
# Building with pure code

A recipe whose code is pure builds the provider that its plan tells, with new identities in the
order of building.
-/

namespace ProviderGraph

/-- A provider and what it looks like. -/
structure Provider.LooksLike (k lo hi : Identity) (p q : Provider) : Prop where
  blur_eq : p.blur k = q
  placed : p.Placed k lo hi

/-- Something that may be built and what it looks like. -/
inductive Provider.MayLookLike (k lo hi : Identity) : Option Provider → Option Provider → Prop where
  | none : MayLookLike k lo hi none none
  | some {p q : Provider} (h : p.LooksLike k lo hi q) : MayLookLike k lo hi (some p) (some q)

open Provider (LooksLike MayLookLike)

section Bounds

variable {k lo lo' hi hi' : Identity}

theorem Provider.LooksLike.mono {p q : Provider} (h : p.LooksLike k lo hi q) (hlo : lo' ≤ lo)
    (hhi : hi ≤ hi') : p.LooksLike k lo' hi' q := ⟨h.blur_eq, h.placed.mono hlo hhi⟩

theorem Provider.MayLookLike.mono {p q : Option Provider} (h : MayLookLike k lo hi p q)
    (hlo : lo' ≤ lo) : MayLookLike k lo' hi p q := by
  cases h with
  | none => exact .none
  | some h => exact .some (h.mono hlo (Nat.le_refl _))

end Bounds

/-- A provider without new identities looks like itself. -/
theorem Provider.Minted.looksLike {k lo hi : Identity} {p : Provider} (h : p.Minted k) :
    p.LooksLike k lo hi p := ⟨h.blur_eq, h.placed⟩

variable {m m₁ : Machine} {held : Option Payload}

theorem Machine.Evolves.min_supply (h : m.Evolves m₁) : min m₁.supply m.supply = m.supply :=
  h.sameRegisters.min_supply

theorem Identity.Placed.supply {lo : Identity} (h : lo ≤ m₁.supply) :
    Identity.Placed m.supply lo (m₁.supply + 1) m₁.supply := .inr ⟨h, Nat.lt_succ_self _⟩

namespace Agrees

theorem build {r : Recipe} {o : Except Failure (Option Provider)}
    {R : Identity → Option Provider → Option Provider → Prop}
    (h : Agrees (evalRecipe r held) m₁ o R) : Agrees (Ask.build r held) m₁ o R :=
  h.of_rule (Ask.run_rule _ _)

theorem action {a : Action} (ha : a.Pure) (x : Payload) :
    Agrees (Ask.action a held x) m₁ (a.result held x) fun _ y z => y = z :=
  ⟨_, m₁, ha.computes held x m₁, .refl m₁, Eq.refl _, .rfl⟩

/-- The result that is given is the result at rest. -/
theorem of_except {α : Type} (r : Except Failure α) :
    Agrees (ofExcept r : UserCode α) m₁ r fun _ x y => x = y := by
  cases r with
  | ok x => exact .pure rfl
  | error e => exact .throw e

/-- What is found in a register is what the register holds. -/
theorem lookup {α : Type} {what name : String} {registers : Machine → Table String α} :
    Agrees (ProviderGraph.lookup what registers name) m₁ ((registers m₁).content what name)
      fun _ x y => x = y ∧ (registers m₁).find? name = some y := by
  refine .lift_bind rfl (.refl m₁) rfl ?_
  rw [Table.content]
  split
  · next a h => exact .pure ⟨rfl, h⟩
  · exact .throw _

/-- What is made of a part looks like what is made of its look. -/
theorem withPart {r : Recipe} {o : Except Failure (Option Provider)} {lo : Identity}
    {f : Provider → UserCode Provider} {g : Provider → Provider}
    (hr : Agrees (Ask.build r held) m₁ o (MayLookLike m.supply lo))
    (hf : ∀ p q n, m₁.Evolves n → p.LooksLike m.supply lo n.supply q →
      ∃ p', (f p).run.run engine n = some (.ok p', { n with supply := n.supply + 1 }) ∧
        p'.LooksLike m.supply lo (n.supply + 1) (g q)) :
    Agrees (withPart r held f) m₁ (do return (← o).map g) (MayLookLike m.supply lo) := by
  refine .bind hr fun a b n hn _ _ hab => ?_
  cases hab with
  | none => exact .pure .none
  | some h =>
    obtain ⟨p', hrun, hp'⟩ := hf _ _ n hn h
    refine ⟨_, _, ?_, .fresh n, rfl, .ok (.some hp')⟩
    exact (Eval.run_bind_ok hrun fun p => Pure.pure (some p))

section Parts

variable {base left right next : Recipe} {o o' : Except Failure (Option Provider)} {lo : Identity}
  (h₁ : m.SameRegisters m₁) (hlo : lo ≤ m₁.supply)
  (hb : Agrees (Ask.build base held) m₁ o (MayLookLike m.supply lo))

include h₁ hlo hb

/-- A new provider is built around a part. -/
theorem newPart {f : Identity → Provider → Provider}
    (hblur : ∀ i p, (f i p).blur m.supply = f (min i m.supply) (p.blur m.supply))
    (hplaced : ∀ i p hi, Identity.Placed m.supply lo hi i → p.Placed m.supply lo i →
      (f i p).Placed m.supply lo hi) :
    Agrees (ProviderGraph.withPart base held fun p => do return f (← Eval.identity) p) m₁
      (do return (← o).map (f m.supply)) (MayLookLike m.supply lo) := by
  refine .withPart hb fun p q n hn hp => ⟨_, rfl, ?_, ?_⟩
  · rw [hblur, hp.blur_eq, (h₁.trans hn.sameRegisters).min_supply]
  · exact hplaced _ _ _ (.supply (Nat.le_trans hlo hn.supply_le)) hp.placed

/-- The second side of a fallback is built on the machine that the first one leaves. -/
theorem buildOrElse (hr : ∀ n, m₁.Evolves n →
      Agrees (Ask.build right held) n o' (MayLookLike m.supply n.supply)) :
    Agrees (Ask.build (.orElse base right) held) m₁
      (do
        match ← o with
        | some l => return (← o').map (.orElse m.supply l)
        | none => return none) (MayLookLike m.supply lo) := by
  refine .build (.bind hb fun l l' n hn _ _ hl => ?_)
  cases hl with
  | none => exact .pure .none
  | @some l l' hl =>
    refine .withPart ((hr n hn).imp fun _ _ _ _ h => h.mono (Nat.le_trans hlo hn.supply_le))
      fun p q o ho hp => ⟨_, rfl, ?_, ?_⟩
    · have hk := h₁.trans (hn.trans ho).sameRegisters
      simp [Provider.blur, hl.blur_eq, hp.blur_eq, hk.min_supply]
    · exact ⟨.supply (Nat.le_trans hlo (hn.trans ho).supply_le),
        hl.placed.mono (Nat.le_refl _) ho.supply_le, hp.placed⟩

omit h₁ hb in
/-- A recipe may run code on the held payload first. -/
theorem buildAfter {a : Action} (ha : a.Pure) (hn : ∀ n, m₁.Evolves n →
      Agrees (Ask.build next held) n o (MayLookLike m.supply n.supply)) :
    Agrees (Ask.build (.after a next) held) m₁
      (do
        match ← a.result held (← heldPayload held) with
        | some _ => o
        | none => return none) (MayLookLike m.supply lo) := by
  refine .build (.bind (.of_except _) fun x x' n hn₁ _ _ hx => ?_)
  subst hx
  refine .bind (.action ha x) fun y y' n' hn' _ _ hy => ?_
  subst hy
  cases y with
  | none => exact .pure .none
  | some y =>
    have hev := hn₁.trans hn'
    exact (hn n' hev).imp fun _ _ _ _ h => h.mono (Nat.le_trans hlo hev.supply_le)

omit h₁ hb in
/-- A recipe may be chosen by the held payload. -/
theorem buildDispatch {f : Payload → Recipe} {g : Payload → Except Failure (Option Provider)}
    (hf : ∀ x n, m₁.Evolves n →
      Agrees (Ask.build (f x) held) n (g x) (MayLookLike m.supply n.supply)) :
    Agrees (Ask.build (.dispatch f) held) m₁ (do g (← heldPayload held))
      (MayLookLike m.supply lo) := by
  refine .build (.bind (.of_except _) fun x x' n hn _ _ hx => ?_)
  subst hx
  exact (hf x n hn).imp fun _ _ _ _ h => h.mono (Nat.le_trans hlo hn.supply_le)

end Parts

end Agrees

/-- A recipe with pure code builds what its plan tells. -/
theorem Recipe.Pure.agrees (hm : m.Minted) {r : Recipe} (h : r.Pure)
    (h₁ : m.SameRegisters m₁) :
    Agrees (Ask.build r held) m₁ (r.plan m held) (MayLookLike m.supply m₁.supply) := by
  have hlo := Nat.le_refl m₁.supply
  induction h generalizing m₁ with
  | register name =>
    refine .build ?_
    rw [evalRecipe, plan, ← h₁.providerRegisters_eq, map_eq_pure_bind]
    refine .bind .lookup fun p q n hn _ _ hpq => ?_
    obtain ⟨rfl, hq⟩ := hpq
    rw [h₁.providerRegisters_eq] at hq
    exact .pure (.some (hm.providers _ _ hq).looksLike)
  | fixed x =>
    refine .build ⟨_, _, rfl, .fresh m₁, rfl, .ok (.some ⟨?_, .supply hlo⟩)⟩
    simp [Provider.blur, h₁.min_supply]
  | undefined type =>
    refine .build ⟨_, _, rfl, .fresh m₁, rfl, .ok (.some ⟨?_, .supply hlo⟩)⟩
    simp [Provider.blur, h₁.min_supply]
  | changing type code =>
    refine .build ⟨_, _, rfl, .trans (.fresh m₁) (.fresh _), rfl, .ok (.some ⟨?_, ?_⟩)⟩
    · simp [Provider.blur, Calls.blur, h₁.min_supply, Nat.le_succ_of_le h₁.supply_le]
    · exact (Identity.Placed.supply hlo).mono hlo (Nat.le_succ _)
  | produced type node code =>
    refine .build (.bind (.of_except _) fun name name' n hn _ _ hname => ?_)
    subst hname
    have hn' := h₁.trans hn.sameRegisters
    refine ⟨_, _, rfl, .trans (.fresh n) (.fresh _), rfl, .ok (.some ⟨?_, ?_⟩)⟩
    · simp [Provider.blur, Calls.blur, hn'.min_supply, Nat.le_succ_of_le hn'.supply_le]
    · exact (Identity.Placed.supply hn.supply_le).mono hlo (Nat.le_succ _)
  | property name =>
    refine .build ?_
    rw [evalRecipe, plan, ← h₁.propertyRegisters_eq]
    refine .bind .lookup fun p q n hn _ _ hpq => ?_
    obtain ⟨rfl, hq⟩ := hpq
    rw [h₁.propertyRegisters_eq] at hq
    exact .pure (.some ⟨rfl, hm.properties _ _ hq⟩)
  | map f type _ ih =>
    exact .build (.newPart h₁ hlo (ih h₁ hlo) (f := (.map · · ⟨f, held⟩ type))
      (fun _ _ => rfl) fun _ _ _ => .intro)
  | flatMap choice type _ ih =>
    exact .build (.newPart h₁ hlo (ih h₁ hlo) (f := (.flatMap · · choice type))
      (fun _ _ => rfl) fun _ _ _ => .intro)
  | orElse _ _ ihl ihr =>
    exact .buildOrElse h₁ hlo (ihl h₁ hlo) fun n hn =>
      ihr (h₁.trans hn.sameRegisters) (Nat.le_refl _)
  | withEffect e _ ih =>
    exact .build (.newPart h₁ hlo (ih h₁ hlo) (f := (.withEffect · · e))
      (fun _ _ => rfl) fun _ _ _ => .intro)
  | named name _ ih =>
    exact .build (.newPart h₁ hlo (ih h₁ hlo) (f := (.named · · name))
      (fun _ _ => rfl) fun _ _ _ => .intro)
  | @result a ha =>
    refine .build (.bind (.of_except _) fun x x' n hn _ _ hx => ?_)
    subst hx
    refine .bind (.action ha x) fun y y' o ho _ _ hy => ?_
    subst hy
    cases y with
    | none => exact .pure .none
    | some y =>
      have ho' := hn.trans ho
      refine ⟨_, _, rfl, .fresh o, rfl, .ok (.some ⟨?_, .supply ho'.supply_le⟩)⟩
      simp [Provider.blur, (h₁.trans ho'.sameRegisters).min_supply]
  | after ha _ ih =>
    exact .buildAfter hlo ha fun n hn => ih (h₁.trans hn.sameRegisters) (Nat.le_refl _)
  | dispatch _ ih =>
    exact .buildDispatch hlo fun x n hn => ih x (h₁.trans hn.sameRegisters) (Nat.le_refl _)

end ProviderGraph

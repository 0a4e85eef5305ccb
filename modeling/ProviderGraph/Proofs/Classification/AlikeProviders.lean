import ProviderGraph.Proofs.Graph.Twins

/-!
# Providers that differ in identities only

Code that builds a provider twice builds providers with different identities. Apart from these they
are the same, as long as the registers that the code refers to hold what they held
(`Provider.Alike`, `Recipe.Twin.builds`).
-/

namespace ProviderGraph

variable {R : Region} {m n k : Machine} {held : Option Payload} {p p' q q' : Provider}

/-- The providers differ in identities only. -/
def Provider.Alike (p q : Provider) : Prop := p.blur 0 = q.blur 0

namespace Provider.Alike

theorem refl (p : Provider) : p.Alike p := rfl

theorem symm (h : p.Alike q) : q.Alike p := Eq.symm h

variable {i j : Identity} {type : PayloadType}

theorem fixed (x : Payload) : (Provider.fixed i x).Alike (.fixed j x) := by simp [Alike, blur]

theorem undefined (path : List String) :
    (Provider.undefined i type path).Alike (.undefined j type path) := by simp [Alike, blur]

theorem changing {c c' : Identity} (node : Option String) (code : Nat → Action)
    (held : Option Payload) : (Provider.changing i type node ⟨c, code, held⟩).Alike
      (.changing j type node ⟨c', code, held⟩) := by simp [Alike, blur, Calls.blur]

theorem map (h : p.Alike q) (f : Closure) : (Provider.map i p f type).Alike (.map j q f type) := by
  simpa [Alike, blur] using h

/-- Flat maps over bases that look alike look alike. -/
theorem flatMap (h : p.Alike q) (choice : Recipe) :
    (Provider.flatMap i p choice type).Alike (.flatMap j q choice type) := by
  simpa [Alike, blur] using h

/-- Fallbacks whose sides look alike look alike. -/
theorem orElse (h : p.Alike q) (h' : p'.Alike q') :
    (Provider.orElse i p p').Alike (.orElse j q q') := by
  simpa [Alike, blur] using And.intro h h'

theorem withEffect (h : p.Alike q) (e : Effect) :
    (Provider.withEffect i p e).Alike (.withEffect j q e) := by
  simpa [Alike, blur] using h

theorem named (h : p.Alike q) (name : String) :
    (Provider.named i p name).Alike (.named j q name) := by
  simpa [Alike, blur] using h

end Provider.Alike

/-- The registers of the region hold on `k` what they hold on `m`. -/
structure Region.SameNames (R : Region) (m k : Machine) : Prop where
  providers : ∀ name, R.providerRegister name →
    k.providerRegisters.find? name = m.providerRegisters.find? name
  properties : ∀ name, R.propertyRegister name →
    k.propertyRegisters.find? name = m.propertyRegisters.find? name

namespace Region.SameNames

theorem trans (h : R.SameNames m n) (h' : R.SameNames n k) : R.SameNames m k where
  providers name hname := (h'.providers name hname).trans (h.providers name hname)
  properties name hname := (h'.properties name hname).trans (h.properties name hname)

theorem evolves (h : R.SameNames m k) (hn : k.Evolves n) : R.SameNames m n := by
  refine h.trans ⟨fun name _ => ?_, fun name _ => ?_⟩
  · rw [hn.sameRegisters.providerRegisters_eq]
  · rw [hn.sameRegisters.propertyRegisters_eq]

theorem moment (R : Region) (m : Machine) (s : ScopeStack) (i : Identity) :
    R.SameNames m (m.moment s i) := ⟨fun _ _ => rfl, fun _ _ => rfl⟩

end Region.SameNames

theorem Table.content_congr {α : Type} {t u : Table String α} {what name : String}
    (h : t.find? name = u.find? name) : t.content what name = u.content what name := by
  rw [Table.content, Table.content, h]

/-! ### Building -/

namespace Agrees

open Provider (Alike)

variable {o o' : Except Failure (Option Provider)} {base right : Recipe}

/-- A provider is built around a part. -/
theorem alikePart {f : Identity → Provider → Provider} {g : Provider → Provider}
    (hb : Agrees (Ask.build base held) k o fun _ => Option.Rel Alike)
    (hf : ∀ i p q, p.Alike q → (f i p).Alike (g q)) :
    Agrees (ProviderGraph.withPart base held fun p => do return f (← Eval.identity) p) k
      (do return (← o).map g) fun _ => Option.Rel Alike := by
  apply Agrees.bind hb
  intro a b n _ _ _ hab
  cases hab with
  | none => exact .pure .none
  | some h => exact ⟨_, _, rfl, .fresh n, rfl, .ok (.some (hf _ _ _ h))⟩

end Agrees

/-- A recipe of the region builds what it describes, but for identities, wherever the registers of
the region hold the same. -/
theorem Recipe.Twin.builds {r r' : Recipe} (h : r.Twin R r') (hk : R.SameNames m k) :
    Agrees (Ask.build r held) k (r.plan m held) fun _ => Option.Rel Provider.Alike := by
  induction h generalizing k with
  | @register name hname =>
    apply Agrees.build
    rw [evalRecipe, plan, map_eq_pure_bind, ← Table.content_congr (hk.providers name hname)]
    apply Agrees.bind .lookup
    rintro p _ n - - - ⟨rfl, -⟩
    exact .pure (.some (.refl p))
  | fixed x => exact .build ⟨_, _, rfl, .fresh k, rfl, .ok (.some (.fixed x))⟩
  | undefined type => exact .build ⟨_, _, rfl, .fresh k, rfl, .ok (.some (.undefined []))⟩
  | changing type _ =>
    exact .build ⟨_, _, rfl, .trans (.fresh k) (.fresh _), rfl, .ok (.some (.changing none _ held))⟩
  | produced type node _ =>
    apply Agrees.build
    apply Agrees.bind (.of_except _)
    rintro name _ n - - - rfl
    exact ⟨_, _, rfl, .trans (.fresh n) (.fresh _), rfl, .ok (.some (.changing (some name) _ held))⟩
  | @property name hname =>
    apply Agrees.build
    rw [evalRecipe, plan, ← Table.content_congr (hk.properties name hname)]
    apply Agrees.bind .lookup
    rintro p _ n - - - ⟨rfl, -⟩
    exact .pure (.some (.refl _))
  | map type _ _ ih =>
    exact .build (.alikePart (f := (.map · · ⟨_, held⟩ type)) (ih hk) fun _ _ _ h => h.map _)
  | flatMap type _ _ ih _ =>
    exact .build (.alikePart (f := (.flatMap · · _ type)) (ih hk) fun _ _ _ h => h.flatMap _)
  | orElse _ _ ihl ihr =>
    apply Agrees.build
    apply Agrees.bind (ihl hk)
    intro l l' n hn _ _ hl
    cases hl with
    | none => exact .pure .none
    | @some l l' hl =>
      exact .alikePart (f := (.orElse · l ·)) (ihr (hk.evolves hn)) fun _ _ _ h => hl.orElse h
  | withEffect e _ ih =>
    exact .build (.alikePart (f := (.withEffect · · e)) (ih hk) fun _ _ _ h => h.withEffect e)
  | named name _ ih =>
    exact .build (.alikePart (f := (.named · · name)) (ih hk) fun _ _ _ h => h.named name)
  | result ha =>
    apply Agrees.build
    apply Agrees.bind (.of_except _)
    rintro x _ n - - - rfl
    apply Agrees.bind (.action ha x)
    rintro y _ o - - - rfl
    cases y with
    | none => exact .pure .none
    | some y => exact ⟨_, _, rfl, .fresh o, rfl, .ok (.some (.fixed y))⟩
  | after ha _ ih =>
    apply Agrees.build
    apply Agrees.bind (.of_except _)
    rintro x _ n hn - - rfl
    apply Agrees.bind (.action ha x)
    rintro y _ o ho - - rfl
    cases y with
    | none => exact .pure .none
    | some y => exact ih (hk.evolves (hn.trans ho))
  | dispatch _ ih =>
    apply Agrees.build
    apply Agrees.bind (.of_except _)
    rintro x _ n hn - - rfl
    exact ih x (hk.evolves hn)

/-- Twin recipes build providers that look as the plan says. -/
theorem Recipe.Twin.sameResult_of_engine {r r' : Recipe} (h : r.Twin R r') (hk : R.SameNames m k)
    {a : Except Failure (Option Provider)} (ha : engine (.build r held) k = some (a, n)) :
    SameResult (Option.Rel Provider.Alike) a (r.plan m held) := by
  have hbuilds : Agrees (Ask.build r held) k (r.plan m held) fun _ => Option.Rel Provider.Alike :=
    h.builds hk
  obtain ⟨a', n', hbuild, -, -, hsame⟩ := hbuilds
  have hask : (Ask.build r held).run.run engine k = engine (.build r held) k := Eval.run_ask _ _ _
  cases (hask.symm.trans hbuild).symm.trans ha
  exact hsame

end ProviderGraph

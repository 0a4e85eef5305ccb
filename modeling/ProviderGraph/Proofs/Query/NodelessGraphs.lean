import ProviderGraph.Proofs.Effect.Deliveries

/-!
# Graphs without outputs of work nodes

A graph that has no outputs of work nodes has to be evaluated to tell whether a payload is there.
Custom providers may be part of it if they tell so themselves by their value. What its recipes build
is described here for machines that have drifted: evaluation has handed out identities, counted
calls and noted events there, and done nothing else.
-/

namespace ProviderGraph

open Provider (LooksLike MayLookLike)

/-! ### Graphs -/

/-- Recipes that stay in the region, transform by pure code and describe no output of a work node.
Custom providers have no presence of their own. -/
inductive Recipe.Nodeless (R : Region) : Recipe → Prop where
  | register {name : String} : R.providerRegister name → Nodeless R (.register name)
  | fixed (x : Payload) : Nodeless R (.fixed x)
  | undefined (type : PayloadType) : Nodeless R (.undefined type)
  | changing (type : PayloadType) {code : Nat → Action} :
    R.leaf code code → Nodeless R (.changing type code)
  | property {name : String} : R.propertyRegister name → Nodeless R (.property name)
  | map {base : Recipe} {f : Action} (type : PayloadType) :
    Nodeless R base → f.Pure → Nodeless R (.map base f type)
  | flatMap {base choice : Recipe} (type : PayloadType) :
    Nodeless R base → Nodeless R choice → Nodeless R (.flatMap base choice type)
  | orElse {left right : Recipe} :
    Nodeless R left → Nodeless R right → Nodeless R (.orElse left right)
  | withEffect {inner : Recipe} (e : Effect) :
    Nodeless R inner → Nodeless R (.withEffect inner e)
  | named {inner : Recipe} (name : String) : Nodeless R inner → Nodeless R (.named inner name)
  | custom {form : CustomForm} {code : Nat → Action} (effect : Option Effect) :
    form.kind = .plain → R.leaf code code → Nodeless R (.custom form code effect)
  | result {a : Action} : a.Pure → Nodeless R (.result a)
  | after {a : Action} {next : Recipe} : a.Pure → Nodeless R next → Nodeless R (.after a next)
  | dispatch {f : Payload → Recipe} : (∀ x, Nodeless R (f x)) → Nodeless R (.dispatch f)

/-- The provider and its parts stay in the region, transform by pure code and are no outputs of work
nodes. Custom providers have no presence of their own. -/
def Provider.Nodeless (R : Region) : Provider → Prop
  | .fixed _ _ | .undefined _ _ _ => True
  | .changing _ _ node calls => node = none ∧ R.leaf calls.code calls.code
  | .map _ base f _ => base.Nodeless R ∧ f.code.Pure
  | .flatMap _ base choice _ => base.Nodeless R ∧ choice.Nodeless R
  | .orElse _ left right => left.Nodeless R ∧ right.Nodeless R
  | .withEffect _ inner _ | .named _ inner _ => inner.Nodeless R
  | .property r => R.property r.id
  | .custom _ form _ calls _ => form.kind = .plain ∧ R.leaf calls.code calls.code

/-- The properties of the region read from such providers, and its registers hold them. -/
structure Machine.Nodeless (R : Region) (m : Machine) : Prop where
  effective (i : Identity) (q : Provider) :
    R.property i → (m.property i).effective = some q → q.Nodeless R
  providers (name : String) (q : Provider) :
    R.providerRegister name → m.providerRegisters.find? name = some q → q.Nodeless R
  properties (name : String) (r : PropertyRef) :
    R.propertyRegister name → m.propertyRegisters.find? name = some r → R.property r.id

/-! ### Drifted machines -/

/-- Identities may have been handed out, calls counted, events noted and scopes opened or closed
since, and nothing else. -/
structure Machine.Drifts (m n : Machine) : Prop where
  supply_le : m.supply ≤ n.supply
  eq : n = { m with
    stack := n.stack
    supply := n.supply
    counters := n.counters
    events := n.events }

variable {R : Region} {m n o : Machine}

namespace Machine.Drifts

theorem refl (m : Machine) : m.Drifts m := ⟨Nat.le_refl _, rfl⟩

theorem trans (h : m.Drifts n) (h' : n.Drifts o) : m.Drifts o where
  supply_le := Nat.le_trans h.supply_le h'.supply_le
  eq := by
    rw [h'.eq, h.eq]

theorem stack (h : m.Drifts n) (s : ScopeStack) : m.Drifts { n with stack := s } where
  supply_le := h.supply_le
  eq := by rw [h.eq]

theorem note (m : Machine) (e : Event) : m.Drifts (m.note e) := ⟨Nat.le_refl _, rfl⟩

theorem property_eq (h : m.Drifts n) (i : Identity) : n.property i = m.property i := by
  rw [h.eq]
  rfl

theorem sameRegisters (h : m.Drifts n) : m.SameRegisters n where
  supply_le := h.supply_le
  providerRegisters_eq := by rw [h.eq]
  propertyRegisters_eq := by rw [h.eq]

end Machine.Drifts

/-- A machine that only evolved has drifted. -/
theorem Machine.Evolves.drifts (h : m.Evolves n) : m.Drifts n where
  supply_le := h.supply_le
  eq := by
    rw [h.eq]

/-! ### Building -/

variable {r base left right next : Recipe} {held : Option Payload}
  {b b' : Except Failure (Option Provider)}

/-- What the recipe builds is of the graph, and looks like `b` on all machines that have drifted. -/
structure Recipe.Builds (R : Region) (m : Machine) (held : Option Payload) (r : Recipe)
    (b : Except Failure (Option Provider)) : Prop where
  nodeless (q : Provider) : b = .ok (some q) → q.Nodeless R
  agrees (n : Machine) : m.Drifts n →
    Agrees (Ask.build r held) n b (MayLookLike m.supply n.supply)

namespace Recipe.Builds

/-- A provider around a part is of the graph if this follows from the part being so. -/
theorem nodeless_map (h : base.Builds R m held b) {f : Provider → Provider}
    (hf : ∀ p, p.Nodeless R → (f p).Nodeless R) (q : Provider)
    (hq : (do return (← b).map f : Except Failure (Option Provider)) = .ok (some q)) :
    q.Nodeless R := by
  obtain ⟨p?, hp, hq⟩ := exists_of_bind_eq_ok hq
  cases p? with
  | none => cases hq
  | some p =>
    obtain rfl := Option.some.inj (Except.ok.inj hq)
    exact hf p (h.nodeless p hp)

/-- A pure recipe builds what its plan says. -/
theorem of_pure (hm : m.Minted) (hr : r.Pure)
    (h : ∀ q, r.plan m held = .ok (some q) → q.Nodeless R) :
    r.Builds R m held (r.plan m held) where
  nodeless := h
  agrees _ hn := hr.agrees hm hn.sameRegisters

/-- What stands in a register is of the graph. -/
theorem register (hm : m.Minted) (hg : m.Nodeless R) {name : String}
    (h : R.providerRegister name) :
    (Recipe.register name).Builds R m held ((Recipe.register name).plan m held) := by
  refine of_pure hm (.register name) fun q hq => ?_
  rw [plan, Table.content] at hq
  cases hfind : m.providerRegisters.find? name with
  | none =>
    rw [hfind] at hq
    cases hq
  | some p =>
    rw [hfind] at hq
    cases hq
    exact hg.providers name _ h hfind

theorem property (hm : m.Minted) (hg : m.Nodeless R) {name : String}
    (h : R.propertyRegister name) :
    (Recipe.property name).Builds R m held ((Recipe.property name).plan m held) := by
  refine of_pure hm (.property name) fun q hq => ?_
  rw [plan, Table.content] at hq
  cases hfind : m.propertyRegisters.find? name with
  | none =>
    rw [hfind] at hq
    cases hq
  | some r =>
    rw [hfind] at hq
    cases hq
    exact hg.properties name _ h hfind

/-- A new provider around a part. -/
theorem newPart (h : base.Builds R m held b) {f : Identity → Provider → Provider}
    (hrule : evalRecipe r held = withPart base held fun p => do return f (← Eval.identity) p)
    (hf : ∀ p, p.Nodeless R → (f m.supply p).Nodeless R)
    (hblur : ∀ i p, (f i p).blur m.supply = f (min i m.supply) (p.blur m.supply))
    (hplaced : ∀ i p lo hi, Identity.Placed m.supply lo hi i → p.Placed m.supply lo i →
      (f i p).Placed m.supply lo hi) :
    r.Builds R m held (do return (← b).map (f m.supply)) where
  nodeless := h.nodeless_map hf
  agrees n hn := by
    refine .build ?_
    rw [hrule]
    exact .newPart hn.sameRegisters (Nat.le_refl _) (h.agrees n hn) hblur fun i p => hplaced i p _

/-- A fallback between what two recipes build is of the graph. -/
theorem orElse (hl : left.Builds R m held b) (hr : right.Builds R m held b') :
    ∃ o, (Recipe.orElse left right).Builds R m held o := by
  refine ⟨_, fun q hq => ?_, fun n hn => .buildOrElse hn.sameRegisters (Nat.le_refl _)
    (hl.agrees n hn) fun n' hn' => hr.agrees n' (hn.trans hn'.drifts)⟩
  obtain ⟨l?, hl?, hq⟩ := exists_of_bind_eq_ok hq
  cases l? with
  | none => cases hq
  | some l =>
    exact hr.nodeless_map (f := (.orElse m.supply l ·)) (fun _ h => ⟨hl.nodeless l hl?, h⟩) q hq

theorem custom {form : CustomForm} {code : Nat → Action} (hkind : form.kind = .plain)
    (hcode : R.leaf code code) (effect : Option Effect) :
    (Recipe.custom form code effect).Builds R m held (.ok (some (.custom m.supply form
      (form.producer.tree m.locals.producers) ⟨m.supply, code, held⟩ effect))) where
  nodeless q hq := by
    cases hq
    exact ⟨hkind, hcode⟩
  agrees n hn := by
    have hlocals : n.locals = m.locals := by rw [hn.eq]
    refine .build ⟨_, _, rfl, .trans (.fresh n) (.fresh _), rfl, .ok (.some ⟨?_, ?_⟩)⟩
    · simp [Provider.blur, Calls.blur, hlocals, hn.sameRegisters.min_supply,
        Nat.le_succ_of_le hn.supply_le]
    · exact (Identity.Placed.supply (Nat.le_refl _)).mono (Nat.le_refl _) (Nat.le_succ _)

/-- Code that is run first gives a payload. -/
theorem result (hm : m.Minted) {a : Action} (ha : a.Pure) :
    (Recipe.result a).Builds R m held ((Recipe.result a).plan m held) := by
  refine of_pure hm (.result ha) fun q hq => ?_
  rw [plan] at hq
  obtain ⟨x, -, hq⟩ := exists_of_bind_eq_ok hq
  obtain ⟨y?, -, hq⟩ := exists_of_bind_eq_ok hq
  cases y? with
  | none => cases hq
  | some y =>
    cases hq
    trivial

/-- An action that is run before a recipe leaves what is built in the graph. -/
theorem after (h : next.Builds R m held b) {a : Action} (ha : a.Pure) :
    ∃ o, (Recipe.after a next).Builds R m held o := by
  refine ⟨_, fun q hq => ?_, fun n hn => .buildAfter (Nat.le_refl _) ha fun n' hn' =>
    h.agrees n' (hn.trans hn'.drifts)⟩
  obtain ⟨x, -, hq⟩ := exists_of_bind_eq_ok hq
  obtain ⟨y?, -, hq⟩ := exists_of_bind_eq_ok hq
  cases y? with
  | none => cases hq
  | some y => exact h.nodeless q hq

theorem dispatch {f : Payload → Recipe} {g : Payload → Except Failure (Option Provider)}
    (h : ∀ x, (f x).Builds R m held (g x)) :
    ∃ o, (Recipe.dispatch f).Builds R m held o := by
  refine ⟨_, fun q hq => ?_, fun n hn => .buildDispatch (Nat.le_refl _) fun x n' hn' =>
    (h x).agrees n' (hn.trans hn'.drifts)⟩
  obtain ⟨x, -, hq⟩ := exists_of_bind_eq_ok hq
  exact (h x).nodeless q hq

end Recipe.Builds

/-- What a recipe of the graph builds looks the same on all machines that have drifted. -/
theorem Recipe.Nodeless.builds (hm : m.Minted) (hg : m.Nodeless R) (h : r.Nodeless R)
    (held : Option Payload) : ∃ o, r.Builds R m held o := by
  induction h with
  | register h => exact ⟨_, .register hm hg h⟩
  | property h => exact ⟨_, .property hm hg h⟩
  | fixed x =>
    refine ⟨_, .of_pure hm (.fixed x) fun q hq => ?_⟩
    cases hq
    trivial
  | undefined type =>
    refine ⟨_, .of_pure hm (.undefined type) fun q hq => ?_⟩
    cases hq
    trivial
  | @changing type code hcode =>
    refine ⟨_, .of_pure hm (.changing type code) fun q hq => ?_⟩
    cases hq
    exact ⟨rfl, hcode⟩
  | @map _ f type _ hf ih =>
    obtain ⟨o, ho⟩ := ih
    exact ⟨_, ho.newPart (f := (.map · · ⟨f, held⟩ type)) rfl (fun _ h => ⟨h, hf⟩)
      (fun _ _ => rfl) fun _ _ _ _ => .intro⟩
  | @flatMap _ choice type _ hc ih _ =>
    obtain ⟨o, ho⟩ := ih
    exact ⟨_, ho.newPart (f := (.flatMap · · choice type)) rfl (fun _ h => ⟨h, hc⟩)
      (fun _ _ => rfl) fun _ _ _ _ => .intro⟩
  | withEffect e _ ih =>
    obtain ⟨o, ho⟩ := ih
    exact ⟨_, ho.newPart (f := (.withEffect · · e)) rfl (fun _ h => h)
      (fun _ _ => rfl) fun _ _ _ _ => .intro⟩
  | named name _ ih =>
    obtain ⟨o, ho⟩ := ih
    exact ⟨_, ho.newPart (f := (.named · · name)) rfl (fun _ h => h)
      (fun _ _ => rfl) fun _ _ _ _ => .intro⟩
  | orElse _ _ ihl ihr =>
    obtain ⟨o, hl⟩ := ihl
    obtain ⟨o', hr⟩ := ihr
    exact hl.orElse hr
  | custom effect hkind hcode => exact ⟨_, .custom hkind hcode effect⟩
  | result ha => exact ⟨_, .result hm ha⟩
  | after ha _ ih =>
    obtain ⟨o, ho⟩ := ih
    exact ho.after ha
  | @dispatch f _ ih =>
    choose g hg using ih
    exact Recipe.Builds.dispatch hg

end ProviderGraph

import ProviderGraph.Proofs.Identity.Evolution
import ProviderGraph.Proofs.Identity.Renaming
import ProviderGraph.Proofs.Scope.Frames

/-!
# Graphs without effects

Take every effect off the providers of a machine and off those that its recipes build, and what is
left is the bare machine. Runs on both hand out identities of their own: `Provider.Strips` says that
a provider of the bare machine is one of the other machine without its effects, where a pairing
tells which identities correspond. A scope of a provider with an effect has no partner.
-/

namespace ProviderGraph

/-! ### Without effects -/

def Recipe.bare : Recipe → Recipe
  | .map base f type => .map base.bare f type
  | .flatMap base choice type => .flatMap base.bare choice.bare type
  | .orElse left right => .orElse left.bare right.bare
  | .withEffect inner _ => inner.bare
  | .named inner name => .named inner.bare name
  | .after a next => .after a next.bare
  | .dispatch f => .dispatch fun x => (f x).bare
  | r => r

def Provider.bare : Provider → Provider
  | .map i base f type => .map i base.bare f type
  | .flatMap i base choice type => .flatMap i base.bare choice.bare type
  | .orElse i left right => .orElse i left.bare right.bare
  | .withEffect _ inner _ => inner.bare
  | .named i inner name => .named i inner.bare name
  | p => p

def Property.bare (s : Property) : Property :=
  { s with value := s.value.map Provider.bare, convention := s.convention.map Provider.bare }

def Machine.bare (m : Machine) : Machine :=
  { m with
    properties := m.properties.rename id Property.bare
    providerRegisters := m.providerRegisters.mapEntries Provider.bare }

def Value.bare (v : Outcome) : Outcome :=
  match v with
  | .present x _ => .present x none
  | .missing path => .missing path

namespace Value

variable (v : Outcome) (e : Option Effect)

@[simp] theorem bare_ofOption (y : Option Payload) : (ofOption y : Outcome).bare = ofOption y := by
  cases y <;> rfl

@[simp] theorem bare_withEffect : (v.withEffect e).bare = v.bare := by cases v <;> rfl

@[simp] theorem bare_push (name : Option String) : (v.push name).bare = v.bare.push name := by
  cases v <;> rfl

@[simp] theorem isMissing_bare : v.bare.isMissing = v.isMissing := by cases v <;> rfl

end Value

/-- Without effects a property reads from the bare provider. -/
theorem Property.effective_bare (s : Property) :
    s.bare.effective = s.effective.map Provider.bare := by
  obtain ⟨value, convention⟩ := s
  cases value <;> rfl

theorem Machine.property_bare (m : Machine) (i : Identity) :
    m.bare.property i = (m.property i).bare := by
  have hfind : m.bare.properties.find? i = (m.properties.find? i).map Property.bare :=
    m.properties.find?_rename Property.bare (fun _ _ => rfl) i
  rw [property, property, hfind]
  cases m.properties.find? i <;> rfl

/-! ### Identities that correspond -/

/-- Which identities correspond to each other. -/
abbrev Pairing := Identity → Identity → Prop

/-- The pairing is one to one, and between identities below `k` and below `l`. -/
structure Pairing.Sound (ρ : Pairing) (k l : Identity) : Prop where
  left : ∀ i j, ρ i j → i < k
  right : ∀ i j, ρ i j → j < l
  unique : ∀ i j i' j', ρ i j → ρ i' j' → (i = i' ↔ j = j')

/-- All that corresponds corresponds in the other pairing. -/
def Pairing.Within (ρ σ : Pairing) : Prop := ∀ i j, ρ i j → σ i j

def Pairing.add (ρ : Pairing) (k l : Identity) : Pairing := fun i j => ρ i j ∨ i = k ∧ j = l

/-- The scopes that are open on the bare machine correspond to scopes that are open on the other
one, in the same order. -/
inductive Pairing.Frames (ρ : Pairing) : List Owner → List Owner → Prop where
  | nil : Frames ρ [] []
  | both {o o' : Owner} {s s' : List Owner} (ho : ρ o.id o'.id) (h : Frames ρ s s') :
    Frames ρ (o :: s) (o' :: s')
  | left (o : Owner) {s s' : List Owner} (h : Frames ρ s s') : Frames ρ (o :: s) s'

namespace Pairing

variable {ρ σ τ : Pairing} {k l k' l' : Identity} {s s' : List Owner}

theorem Within.refl (ρ : Pairing) : ρ.Within ρ := fun _ _ => id

theorem Within.trans (h : ρ.Within σ) (h' : σ.Within τ) : ρ.Within τ :=
  fun i j hij => h' i j (h i j hij)

theorem within_add (ρ : Pairing) (k l : Identity) : ρ.Within (ρ.add k l) := fun _ _ => .inl

theorem add_self (ρ : Pairing) (k l : Identity) : ρ.add k l k l := .inr ⟨rfl, rfl⟩

namespace Sound

theorem mono (h : ρ.Sound k l) (hk : k ≤ k') (hl : l ≤ l') : ρ.Sound k' l' where
  left i j hij := Nat.lt_of_lt_of_le (h.left i j hij) hk
  right i j hij := Nat.lt_of_lt_of_le (h.right i j hij) hl
  unique := h.unique

/-- Identities that come next may correspond. -/
theorem add (h : ρ.Sound k l) : (ρ.add k l).Sound (k + 1) (l + 1) where
  left := by
    rintro i j (hij | ⟨rfl, -⟩)
    · exact Nat.lt_succ_of_lt (h.left i j hij)
    · exact Nat.lt_succ_self i
  right := by
    rintro i j (hij | ⟨-, rfl⟩)
    · exact Nat.lt_succ_of_lt (h.right i j hij)
    · exact Nat.lt_succ_self j
  unique := by
    rintro i j i' j' (h₁ | ⟨rfl, rfl⟩) (h₂ | ⟨rfl, rfl⟩)
    · exact h.unique i j i' j' h₁ h₂
    · have hi := h.left i j h₁
      have hj := h.right i j h₁
      exact iff_of_false (Nat.ne_of_lt hi) (Nat.ne_of_lt hj)
    · have hi := h.left i' j' h₂
      have hj := h.right i' j' h₂
      exact iff_of_false (Nat.ne_of_gt hi) (Nat.ne_of_gt hj)
    · simp

end Sound

namespace Frames

theorem mono (h : ρ.Frames s s') (hρ : ρ.Within σ) : σ.Frames s s' := by
  induction h with
  | nil => exact .nil
  | both ho _ ih => exact .both (hρ _ _ ho) ih
  | left o _ ih => exact .left o ih

/-- No more scopes are open on the bare machine. -/
theorem length_le (h : ρ.Frames s s') : s'.length ≤ s.length := by
  induction h with
  | nil => exact Nat.le_refl _
  | both _ _ ih => exact Nat.succ_le_succ ih
  | left _ _ ih => exact Nat.le_succ_of_le ih

/-- What is open on the bare machine corresponds to something that is open on the other one. -/
theorem exists_mem (h : ρ.Frames s s') {o' : Owner} (ho : o' ∈ s') : ∃ o ∈ s, ρ o.id o'.id := by
  induction h with
  | nil => cases ho
  | both hid _ ih =>
    rcases List.mem_cons.mp ho with rfl | ho
    · exact ⟨_, List.mem_cons_self, hid⟩
    · obtain ⟨o, hmem, hid⟩ := ih ho
      exact ⟨o, List.mem_cons_of_mem _ hmem, hid⟩
  | left _ _ ih =>
    obtain ⟨o, hmem, hid⟩ := ih ho
    exact ⟨o, List.mem_cons_of_mem _ hmem, hid⟩

end Frames

end Pairing

/-! ### Providers that correspond -/

/-- The second provider is the first one without its effects, with other identities. -/
inductive Provider.Strips (ρ : Pairing) : Provider → Provider → Prop where
  | fixed {i j : Identity} (h : ρ i j) (x : Payload) : Strips ρ (.fixed i x) (.fixed j x)
  | undefined {i j : Identity} (h : ρ i j) (type : PayloadType) (path : List String) :
    Strips ρ (.undefined i type path) (.undefined j type path)
  | changing {i j : Identity} (h : ρ i j) (type : PayloadType) (node : Option String)
      (c c' : Identity) (code : Nat → Action) (held : Option Payload) :
    Strips ρ (.changing i type node ⟨c, code, held⟩) (.changing j type node ⟨c', code, held⟩)
  | map {i j : Identity} (h : ρ i j) {base base' : Provider} (f : Closure) (type : PayloadType)
      (hb : Strips ρ base base') :
    Strips ρ (.map i base f type) (.map j base' f type)
  | flatMap {i j : Identity} (h : ρ i j) {base base' : Provider} (choice : Recipe)
      (type : PayloadType) (hb : Strips ρ base base') :
    Strips ρ (.flatMap i base choice type) (.flatMap j base' choice.bare type)
  | orElse {i j : Identity} (h : ρ i j) {left left' right right' : Provider}
      (hl : Strips ρ left left') (hr : Strips ρ right right') :
    Strips ρ (.orElse i left right) (.orElse j left' right')
  | withEffect (i : Identity) (e : Effect) {inner q : Provider} (h : Strips ρ inner q) :
    Strips ρ (.withEffect i inner e) q
  | named {i j : Identity} (h : ρ i j) {inner inner' : Provider} (name : String)
      (hi : Strips ρ inner inner') :
    Strips ρ (.named i inner name) (.named j inner' name)
  | property {r : PropertyRef} (h : ρ r.id r.id) : Strips ρ (.property r) (.property r)
  | custom {i j : Identity} (h : ρ i j) (form : CustomForm) (producer : Producer)
      (calls calls' : Calls) (effect : Option Effect) :
    Strips ρ (.custom i form producer calls effect) (.custom j form producer calls' effect)

/-- The second classification is the first one without effects. -/
inductive Classification.Strips (ρ : Pairing) : Classification → Classification → Prop where
  | fixed (x : Payload) (e : Option Effect) : Strips ρ (.fixed x e) (.fixed x none)
  | changing {p q : Provider} (h : p.Strips ρ q) : Strips ρ (.changing p) (.changing q)
  | missing (path : List String) : Strips ρ (.missing path) (.missing path)

/-- The second property is the first one with providers without effects. -/
structure Property.Strips (ρ : Pairing) (s s' : Property) : Prop where
  effective : Option.Rel (Provider.Strips ρ) s.effective s'.effective
  attached : s'.attached = s.attached
  frozenProducer : s'.frozenProducer = s.frozenProducer
  finalized : s'.finalized = s.finalized
  finalizeOnRead : s'.finalizeOnRead = s.finalizeOnRead

/-- The second machine is the first one with providers without effects, after runs of their own. -/
structure Machine.Strips (ρ : Pairing) (a b : Machine) : Prop where
  sound : ρ.Sound a.supply b.supply
  frames : ρ.Frames a.stack.frames b.stack.frames
  limit : b.stack.limit = a.stack.limit
  property (i : Identity) : (a.property i).Strips ρ (b.property i)
  providers (name : String) : Option.Rel (Provider.Strips ρ) (a.providerRegisters.find? name)
    (b.providerRegisters.find? name)
  references (name : String) : Option.Rel (fun r r' => r' = r ∧ ρ r.id r.id)
    (a.propertyRegisters.find? name) (b.propertyRegisters.find? name)

theorem optionRel_imp {α β : Type} {R S : α → β → Prop} {x : Option α} {y : Option β}
    (h : Option.Rel R x y) (hRS : ∀ a b, R a b → S a b) : Option.Rel S x y := by
  cases h with
  | none => exact .none
  | some h => exact .some (hRS _ _ h)

namespace Provider.Strips

variable {ρ σ : Pairing} {p q : Provider} {k : Identity}

theorem mono (h : p.Strips ρ q) (hρ : ρ.Within σ) : p.Strips σ q := by
  induction h with
  | fixed h x => exact .fixed (hρ _ _ h) x
  | undefined h type path => exact .undefined (hρ _ _ h) type path
  | changing h type node c c' code held => exact .changing (hρ _ _ h) type node c c' code held
  | map h f type _ ih => exact .map (hρ _ _ h) f type ih
  | flatMap h choice type _ ih => exact .flatMap (hρ _ _ h) choice type ih
  | orElse h _ _ ihl ihr => exact .orElse (hρ _ _ h) ihl ihr
  | withEffect i e _ ih => exact .withEffect i e ih
  | named h name _ ih => exact .named (hρ _ _ h) name ih
  | property h => exact .property (hρ _ _ h)
  | custom h form producer c c' e => exact .custom (hρ _ _ h) form producer c c' e

/-- Stripping keeps the type. -/
theorem type_eq (h : p.Strips ρ q) : q.type = p.type := by
  induction h with
  | orElse _ _ _ ihl _ => exact ihl
  | withEffect _ _ _ ih | named _ _ _ ih => exact ih
  | _ => rfl

/-- Old identities correspond to themselves. -/
theorem bare (hp : p.Minted k) (hρ : ∀ i, i < k → ρ i i) : p.Strips ρ p.bare := by
  induction p with
  | fixed i x => exact .fixed (hρ i hp) x
  | undefined i type path => exact .undefined (hρ i hp) type path
  | changing i type node calls => exact .changing (hρ i hp.1) type node _ _ _ _
  | map i base f type ih => exact .map (hρ i hp.1) f type (ih hp.2)
  | flatMap i base choice type ih => exact .flatMap (hρ i hp.1) choice type (ih hp.2)
  | orElse i left right ihl ihr => exact .orElse (hρ i hp.1) (ihl hp.2.1) (ihr hp.2.2)
  | withEffect i inner e ih => exact .withEffect i e (ih hp.2)
  | named i inner name ih => exact .named (hρ i hp.1) name (ih hp.2)
  | property r => exact .property (hρ r.id hp)
  | custom i form producer calls e => exact .custom (hρ i hp.1) form producer calls calls e

end Provider.Strips

theorem Classification.Strips.mono {ρ σ : Pairing} {c c' : Classification} (h : c.Strips ρ c')
    (hρ : ρ.Within σ) : c.Strips σ c' := by
  cases h with
  | fixed x e => exact .fixed x e
  | changing h => exact .changing (h.mono hρ)
  | missing path => exact .missing path

theorem Property.Strips.mono {ρ σ : Pairing} {s s' : Property} (h : s.Strips ρ s')
    (hρ : ρ.Within σ) : s.Strips σ s' :=
  { h with effective := optionRel_imp h.effective fun _ _ hp => hp.mono hρ }

/-- A property that keeps a value keeps it without the effect. -/
theorem Property.Strips.commit {ρ : Pairing} {s s' : Property} (h : s.Strips ρ s')
    {p q : Provider} (hp : p.Strips ρ q) (t : Producer) :
    (s.commit p t).Strips ρ (s'.commit q t) := by
  rw [Property.commit, Property.commit, h.finalized]
  split
  · exact h
  · exact ⟨.some hp, h.attached, rfl, rfl, h.finalizeOnRead⟩

namespace Machine.Strips

variable {ρ σ : Pairing} {a b : Machine} {o o' : Owner} {t : ScopeStack}

/-- Identities were handed out on the first machine only. -/
theorem freshLeft (h : a.Strips ρ b) : Strips ρ { a with supply := a.supply + 1 } b :=
  { h with sound := h.sound.mono (Nat.le_succ _) (Nat.le_refl _) }

/-- Identities that come next on both machines may correspond. -/
theorem fresh (h : a.Strips ρ b) : Strips (ρ.add a.supply b.supply)
    { a with supply := a.supply + 1 } { b with supply := b.supply + 1 } where
  sound := h.sound.add
  frames := h.frames.mono (ρ.within_add _ _)
  limit := h.limit
  property i := (h.property i).mono (ρ.within_add _ _)
  providers name := optionRel_imp (h.providers name) fun _ _ hp => hp.mono (ρ.within_add _ _)
  references name := optionRel_imp (h.references name) fun _ _ hr => ⟨hr.1, .inl hr.2⟩

theorem bump (h : a.Strips ρ b) (i j : Identity) : (a.bump i).Strips ρ (b.bump j) := { h with }

theorem setProperty (h : a.Strips ρ b) (i : Identity) {s s' : Property} (hs : s.Strips ρ s') :
    (a.setProperty i s).Strips ρ (b.setProperty i s') :=
  { h with
    property := fun j => by
      by_cases hj : j = i
      · subst hj
        rw [property_setProperty_self, property_setProperty_self]
        exact hs
      · rw [property_setProperty_of_ne _ hj, property_setProperty_of_ne _ hj]
        exact h.property j }

/-- Other scopes are open. -/
theorem stack (h : a.Strips ρ b) {s s' : ScopeStack} (hs : ρ.Frames s.frames s'.frames)
    (hlimit : s'.limit = s.limit) : Strips ρ { a with stack := s } { b with stack := s' } :=
  { h with frames := hs, limit := hlimit }

/-- A scope of a provider with an effect is opened. -/
theorem enterLeft (h : a.Strips ρ b) (ht : a.stack.enter o = .ok t) :
    Strips ρ { a with stack := t } b := by
  obtain ⟨-, -, rfl⟩ := ScopeStack.enter_eq_ok_iff.mp ht
  exact { h with frames := .left o h.frames }

/-- A property holds nothing on both machines, or providers that correspond. -/
theorem effective_cases (h : a.Strips ρ b) (i : Identity) :
    (a.property i).effective = none ∧ (b.property i).effective = none ∨
      ∃ p q, (a.property i).effective = some p ∧ (b.property i).effective = some q ∧
        p.Strips ρ q := by
  have heffective := (h.property i).effective
  cases hp : (a.property i).effective <;> cases hq : (b.property i).effective <;>
    rw [hp, hq] at heffective <;> cases heffective
  · exact .inl ⟨rfl, rfl⟩
  · exact .inr ⟨_, _, rfl, rfl, ‹_›⟩

/-- Where a scope can be opened its partner can be opened, too. -/
theorem enter (h : a.Strips ρ b) (ho : ρ o.id o'.id) (ht : a.stack.enter o = .ok t) :
    ∃ t', b.stack.enter o' = .ok t' ∧
      Strips ρ { a with stack := t } { b with stack := t' } := by
  obtain ⟨hopen, hdepth, rfl⟩ := ScopeStack.enter_eq_ok_iff.mp ht
  have hopen' : b.stack.isOpen o'.id = false := by
    refine ScopeStack.isOpen_eq_false_iff.mpr fun f' hf' hid => ?_
    obtain ⟨f, hf, hff'⟩ := h.frames.exists_mem hf'
    have heq := (h.sound.unique _ _ _ _ hff' ho).mpr hid
    exact ScopeStack.isOpen_eq_false_iff.mp hopen f hf heq
  have hdepth' : b.stack.depth < b.stack.limit :=
    Nat.lt_of_le_of_lt h.frames.length_le (h.limit ▸ hdepth)
  refine ⟨_, ScopeStack.enter_eq_ok_iff.mpr ⟨hopen', hdepth', rfl⟩, ?_⟩
  exact h.stack (.both ho h.frames) h.limit

end Machine.Strips

/-- The bare machine is the machine without effects. -/
theorem Machine.Minted.strips {m : Machine} (hm : m.Minted) :
    m.Strips (fun i j => i = j ∧ i < m.supply) m.bare where
  sound := {
    left := fun _ _ h => h.2
    right := fun _ _ h => h.1 ▸ h.2
    unique := fun _ _ _ _ h h' => by rw [h.1, h'.1] }
  frames := by
    show Pairing.Frames _ m.stack.frames m.stack.frames
    have hframes := hm.frames
    generalize m.stack.frames = s at hframes
    induction s with
    | nil => exact .nil
    | cons o s ih =>
      exact .both ⟨rfl, hframes o List.mem_cons_self⟩
        (ih fun o' ho' => hframes o' (List.mem_cons_of_mem _ ho'))
  limit := rfl
  property i := by
    rw [property_bare]
    refine ⟨?_, rfl, rfl, rfl, rfl⟩
    rw [Property.effective_bare]
    cases hq : (m.property i).effective with
    | none => exact .none
    | some q => exact .some (.bare (hm.effective i q hq) fun _ h => ⟨rfl, h⟩)
  providers name := by
    rw [show m.bare.providerRegisters.find? name = _ from
      m.providerRegisters.find?_mapEntries Provider.bare name]
    cases hp : m.providerRegisters.find? name with
    | none => exact .none
    | some p => exact .some (.bare (hm.providers name p hp) fun _ h => ⟨rfl, h⟩)
  references name := by
    show Option.Rel _ (m.propertyRegisters.find? name) (m.propertyRegisters.find? name)
    cases hr : m.propertyRegisters.find? name with
    | none => exact .none
    | some r => exact .some ⟨rfl, rfl, hm.properties name r hr⟩

end ProviderGraph

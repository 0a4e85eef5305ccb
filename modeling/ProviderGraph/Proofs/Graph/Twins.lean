import ProviderGraph.Proofs.Reference.EngineAgreement

/-!
# Twins

Twins are two graphs that differ in what their leaves do when they are called, and in nothing else.
Queries that call no leaf take the same course on both of them: `Eval.SideBySide` says so of two
computations, whatever identity comes next. A graph of a session is told by the part of the machine
that it may refer to, so that nothing is asked of the rest. A graph that is its own twin stays in
that part, and its transforms are pure.
-/

namespace ProviderGraph

/-- A part of a session: some of its properties and registers, and the pairs of calls that twin
leaves may make. -/
structure Region where
  property : Identity → Prop
  providerRegister : String → Prop
  propertyRegister : String → Prop
  leaf : (Nat → Action) → (Nat → Action) → Prop

/-- Recipes that stay in the region, transform by pure code, and differ only in what the leaves
that they describe do. -/
inductive Recipe.Twin (R : Region) : Recipe → Recipe → Prop where
  | register {name : String} : R.providerRegister name → Twin R (.register name) (.register name)
  | fixed (x : Payload) : Twin R (.fixed x) (.fixed x)
  | undefined (type : PayloadType) : Twin R (.undefined type) (.undefined type)
  | changing (type : PayloadType) {code code' : Nat → Action} :
    R.leaf code code' → Twin R (.changing type code) (.changing type code')
  | produced (type : PayloadType) (node : Option String) {code code' : Nat → Action} :
    R.leaf code code' → Twin R (.produced type node code) (.produced type node code')
  | property {name : String} : R.propertyRegister name → Twin R (.property name) (.property name)
  | map {base base' : Recipe} {f : Action} (type : PayloadType) :
    Twin R base base' → f.Pure → Twin R (.map base f type) (.map base' f type)
  | flatMap {base base' choice choice' : Recipe} (type : PayloadType) :
    Twin R base base' → Twin R choice choice' →
      Twin R (.flatMap base choice type) (.flatMap base' choice' type)
  | orElse {left left' right right' : Recipe} :
    Twin R left left' → Twin R right right' → Twin R (.orElse left right) (.orElse left' right')
  | withEffect {inner inner' : Recipe} (e : Effect) :
    Twin R inner inner' → Twin R (.withEffect inner e) (.withEffect inner' e)
  | named {inner inner' : Recipe} (name : String) :
    Twin R inner inner' → Twin R (.named inner name) (.named inner' name)
  | result {a : Action} : a.Pure → Twin R (.result a) (.result a)
  | after {a : Action} {next next' : Recipe} :
    a.Pure → Twin R next next' → Twin R (.after a next) (.after a next')
  | dispatch {f f' : Payload → Recipe} :
    (∀ x, Twin R (f x) (f' x)) → Twin R (.dispatch f) (.dispatch f')

/-- Providers that stay in the region, transform by pure code, and differ only in what their leaves
do. -/
inductive Provider.Twin (R : Region) : Provider → Provider → Prop where
  | fixed (i : Identity) (x : Payload) : Twin R (.fixed i x) (.fixed i x)
  | undefined (i : Identity) (type : PayloadType) (path : List String) :
    Twin R (.undefined i type path) (.undefined i type path)
  | changing (i : Identity) (type : PayloadType) (node : Option String) {calls calls' : Calls} :
    R.leaf calls.code calls'.code →
      Twin R (.changing i type node calls) (.changing i type node calls')
  | map (i : Identity) {base base' : Provider} {f : Closure} (type : PayloadType) :
    Twin R base base' → f.code.Pure → Twin R (.map i base f type) (.map i base' f type)
  | flatMap (i : Identity) {base base' : Provider} {choice choice' : Recipe} (type : PayloadType) :
    Twin R base base' → choice.Twin R choice' →
      Twin R (.flatMap i base choice type) (.flatMap i base' choice' type)
  | orElse (i : Identity) {left left' right right' : Provider} :
    Twin R left left' → Twin R right right' →
      Twin R (.orElse i left right) (.orElse i left' right')
  | withEffect (i : Identity) {inner inner' : Provider} (e : Effect) :
    Twin R inner inner' → Twin R (.withEffect i inner e) (.withEffect i inner' e)
  | named (i : Identity) {inner inner' : Provider} (name : String) :
    Twin R inner inner' → Twin R (.named i inner name) (.named i inner' name)
  | property {r : PropertyRef} : R.property r.id → Twin R (.property r) (.property r)

/-- Classifications that are the same, but for what the leaves of a changing one do. -/
inductive Classification.Twin (R : Region) : Classification → Classification → Prop where
  | fixed (x : Payload) (e : Option Effect) : Twin R (.fixed x e) (.fixed x e)
  | changing {p p' : Provider} : p.Twin R p' → Twin R (.changing p) (.changing p')
  | missing (path : List String) : Twin R (.missing path) (.missing path)

/-- The properties of the region read from twins, and its registers hold twins. -/
structure Machine.Twin (R : Region) (m m' : Machine) : Prop where
  effective : ∀ i, R.property i →
    Option.Rel (Provider.Twin R) (m.property i).effective (m'.property i).effective
  providers : ∀ name, R.providerRegister name →
    Option.Rel (Provider.Twin R) (m.providerRegisters.find? name) (m'.providerRegisters.find? name)
  properties : ∀ name, R.propertyRegister name →
    Option.Rel (fun r r' => r = r' ∧ R.property r.id)
      (m.propertyRegisters.find? name) (m'.propertyRegisters.find? name)

/-- Twins have payloads of one type. -/
theorem Provider.Twin.type_eq {R : Region} {p p' : Provider} (h : p.Twin R p') :
    p.type = p'.type := by
  induction h with
  | orElse _ _ _ ih _ => exact ih
  | withEffect _ _ _ ih | named _ _ _ ih => exact ih
  | _ => rfl

theorem Provider.Twin.kind_eq {R : Region} {p p' : Provider} (h : p.Twin R p') :
    p.kind = p'.kind := by
  cases h <;> rfl

/-- Twins open one and the same scope. -/
theorem Provider.Twin.owner_eq {R : Region} {p p' : Provider} (h : p.Twin R p') :
    p.owner = p'.owner := by
  cases h <;> rfl

/-! ### Computations side by side -/

/-- The machine with the scopes of `s` open, when `k` is the next identity. -/
def Machine.moment (m : Machine) (s : ScopeStack) (k : Identity) : Machine :=
  { m with stack := s, supply := k }

/-- Run with the same scopes open and the same identities to come, the computations take as many
identities, leave the machines as they are otherwise, and give related results. -/
def Eval.SideBySide {α β : Type} (m m' : Machine) (s : ScopeStack) (x : Eval α) (x' : Eval β)
    (P : α → β → Prop) : Prop :=
  ∀ k, ∃ a b j, x.run engine (m.moment s k) = some (a, m.moment s (k + j)) ∧
    x'.run engine (m'.moment s k) = some (b, m'.moment s (k + j)) ∧ P a b

/-- The scope is closed after the body, which may have taken identities. -/
theorem Eval.run_within_moment {α : Type} {m : Machine} {s t : ScopeStack} {k l : Identity}
    {o : Owner} {refused : Fault → Eval α} {body : Eval α} {a : α} (ht : s.enter o = .ok t)
    (hb : body.run engine (m.moment t k) = some (a, m.moment t l)) :
    (Eval.within o refused body).run engine (m.moment s k) = some (a, m.moment s l) := by
  have hs : (m.moment s k).stack.enter o = .ok t := ht
  have hb : body.run engine { m.moment s k with stack := t } = some (a, m.moment t l) := hb
  exact run_within_of_stack hs hb rfl

namespace Eval.SideBySide

variable {ε α α' β β' : Type} {m m' : Machine} {s : ScopeStack}
  {P : α → α' → Prop} {Q : β → β' → Prop}

theorem pure {a : α} {a' : α'} (h : P a a') :
    SideBySide m m' s (Pure.pure a) (Pure.pure a') P :=
  fun _ => ⟨a, a', 0, rfl, rfl, h⟩

theorem bind {x : Eval α} {x' : Eval α'} {f : α → Eval β} {f' : α' → Eval β'}
    (hx : SideBySide m m' s x x' P)
    (hf : ∀ a a', P a a' → SideBySide m m' s (f a) (f' a') Q) :
    SideBySide m m' s (x >>= f) (x' >>= f') Q := by
  intro k
  obtain ⟨a, a', j, h, h', ha⟩ := hx k
  obtain ⟨b, b', l, hb, hb', hq⟩ := hf a a' ha (k + j)
  rw [Nat.add_assoc] at hb hb'
  exact ⟨b, b', j + l, (run_bind_of h f).trans hb, (run_bind_of h' f').trans hb', hq⟩

/-- One computation and then another, where a failure ends both. -/
theorem andThen {x : ExceptT ε Eval α} {x' : ExceptT ε Eval α'} {f : α → ExceptT ε Eval β}
    {f' : α' → ExceptT ε Eval β'} (hx : SideBySide m m' s x.run x'.run (SameResult P))
    (hf : ∀ a a', P a a' → SideBySide m m' s (f a).run (f' a').run (SameResult Q)) :
    SideBySide m m' s (x >>= f).run (x' >>= f').run (SameResult Q) := by
  rw [ExceptT.run_bind, ExceptT.run_bind]
  refine hx.bind fun r r' hr => ?_
  cases hr with
  | ok h => exact hf _ _ h
  | error e => exact .pure (.error e)

/-- A part that cannot fail comes first. -/
theorem liftThen {x : Eval α} {x' : Eval α'} {f : α → ExceptT ε Eval β}
    {f' : α' → ExceptT ε Eval β'} (hx : SideBySide m m' s x x' P)
    (hf : ∀ a a', P a a' → SideBySide m m' s (f a).run (f' a').run (SameResult Q)) :
    SideBySide m m' s (liftM x >>= f).run (liftM x' >>= f').run (SameResult Q) := by
  rw [run_lift_bind, run_lift_bind]
  exact hx.bind hf

theorem ask {q q' : Query} {P : q.Answer → q'.Answer → Prop}
    (h : SideBySide m m' s (rule q) (rule q') P) :
    SideBySide m m' s (.ask q Pure.pure) (.ask q' Pure.pure) P := by
  intro k
  rw [Ask.run_rule, Ask.run_rule]
  exact h k

theorem property (i : Identity) : SideBySide m m' s (Eval.property i) (Eval.property i)
    fun a a' => a = m.property i ∧ a' = m'.property i :=
  fun _ => ⟨_, _, 0, rfl, rfl, rfl, rfl⟩

theorem within {o : Owner} {refused : Fault → Eval α} {refused' : Fault → Eval α'} {x : Eval α}
    {x' : Eval α'} (hf : ∀ f, SideBySide m m' s (refused f) (refused' f) P)
    (hx : ∀ t, s.enter o = .ok t → SideBySide m m' t x x' P) :
    SideBySide m m' s (Eval.within o refused x) (Eval.within o refused' x') P := by
  intro k
  cases ht : s.enter o with
  | error f =>
    obtain ⟨a, a', l, h, h', ha⟩ := hf f k
    exact ⟨a, a', l, run_within_error ht h, run_within_error ht h', ha⟩
  | ok t =>
    obtain ⟨a, a', l, h, h', ha⟩ := hx t ht k
    exact ⟨a, a', l, run_within_moment ht h, run_within_moment ht h', ha⟩

/-- Both computations are run in the scope of one owner. Where it cannot be opened they fail alike.
-/
theorem withinScope {o : Owner} {x : Attempt α} {x' : Attempt α'}
    (hx : ∀ t, s.enter o = .ok t → SideBySide m m' t x.run x'.run (SameResult P)) :
    SideBySide m m' s (ProviderGraph.within o x).run (ProviderGraph.within o x').run
      (SameResult P) :=
  .within (fun f => .pure (.error f)) hx

/-- A run that succeeds ends with the same scopes open, in a result that has its partner. -/
theorem ends {x : ExceptT ε Eval α} {x' : ExceptT ε Eval α'}
    (hx : SideBySide m m' s x.run x'.run (SameResult P)) {k : Identity} {a' : α'} {n : Machine}
    (h : x'.run.run engine (m'.moment s k) = some (.ok a', n)) :
    ∃ a j, P a a' ∧ n = m'.moment s (k + j) := by
  obtain ⟨r, r', j, -, hrun, hr⟩ := hx k
  cases hrun.symm.trans h
  cases hr with
  | ok hP => exact ⟨_, j, hP, rfl⟩

/-- Pure code gives the same result on both machines. -/
theorem action {a : Action} (ha : a.Pure) (held : Option Payload) (x : Payload) :
    SideBySide m m' s (Ask.act a held x) (Ask.act a held x) (fun r r' => r = r') :=
  fun _ => ⟨_, _, 0, ha.computes held x _, ha.computes held x _, rfl⟩

theorem sameResult {x : ExceptT ε Eval α} {x' : ExceptT ε Eval α}
    (h : SideBySide m m' s x.run x'.run (fun r r' => r = r')) :
    SideBySide m m' s x.run x'.run (SameResult fun a a' => a = a') := by
  intro k
  obtain ⟨r, r', l, hr, hr', rfl⟩ := h k
  exact ⟨r, r, l, hr, hr', .rfl⟩

/-- Both computations end with the result that is given. -/
theorem of_except (r : Except ε α) :
    SideBySide m m' s (MonadExcept.ofExcept r : ExceptT ε Eval α).run
      (MonadExcept.ofExcept r : ExceptT ε Eval α).run (SameResult fun a a' => a = a') := by
  cases r with
  | ok a => exact .pure (.ok rfl)
  | error e => exact .pure (.error e)

/-- Registers with related contents are read alike. -/
theorem lookup {what name : String} {registers : Machine → Table String α}
    (hm : ∀ (m : Machine) k, registers (m.moment s k) = registers m)
    {P : α → α → Prop} (h : Option.Rel P ((registers m).find? name) ((registers m').find? name)) :
    SideBySide m m' s (ProviderGraph.lookup what registers name).run
      (ProviderGraph.lookup what registers name).run (SameResult P) := by
  intro k
  have run (m : Machine) : (ProviderGraph.lookup what registers name).run.run engine
      (m.moment s k) = some ((registers m).content what name, m.moment s k) := by
    rw [← hm m k]
    change ((ofExcept _ : UserCode α).run).run engine _ = _
    cases (registers (m.moment s k)).content what name <;> rfl
  refine ⟨_, _, 0, run m, run m', ?_⟩
  simp only [Table.content]
  generalize (registers m).find? name = found, (registers m').find? name = found' at h
  cases h with
  | none => exact .error _
  | some h => exact .ok h

end Eval.SideBySide

end ProviderGraph

import ProviderGraph.Proofs.Engine.Fuel
import ProviderGraph.Proofs.Scope.Ledger

/-!
# Held scopes

A machine agrees with an account of the scopes that are held (`Ledger.Describes`), and each operation
keeps it so. Over every run of requests, nested in whatever way, the stack of the thread has just the
frames of the scopes that are held (`runAll_heldScopes`).
-/

namespace ProviderGraph

/-- The stack and the registers of a machine agree with an account. -/
structure Ledger.Describes (l : Ledger) (m : Machine) : Prop where
  stack : m.stack = l.stack
  scopes : m.locals.scopes = l.registers.map fun e => (e.1, e.2.owner.id)
  owners : m.ownerRegisters = l.owners
  supply : m.supply = l.supply

section Runs

variable {answers : Answerer} {m : Machine} {l : Ledger} {o : Owner} {t : Ticket} {name : String}

def Machine.keepScope (m : Machine) (name : String) (i : Identity) : Machine :=
  { m with locals.scopes := m.locals.scopes.set name i }

theorem run_lookupOwner (answers : Answerer) (m : Machine) (name : String) :
    (lookupOwner name).run.run answers m = some (m.ownerRegisters.content "owner" name, m) := by
  rw [lookupOwner, lookup, Eval.run_lift_bind, Eval.run_bind_of (a := m) (n := m) rfl]
  cases m.ownerRegisters.content "owner" name <;> rfl

theorem run_keepOpen_ok {n : Machine} (h : m.openScope name o = .ok n) :
    (Eval.keepOpen name o).run answers m = some (.ok (), n) := by
  simp only [Eval.keepOpen, Eval.run, h]
  rfl

/-- A scope that cannot be opened leaves the machine as it is. -/
theorem run_keepOpen_error {f : Fault} (h : m.stack.enter o = .error f) (name : String) :
    (Eval.keepOpen name o).run answers m = some (.error f, m) := by
  simp only [Eval.keepOpen, Eval.run, Machine.openScope, h]
  rfl

theorem Table.find?_map {α β : Type} (r : Table String α) (f : α → β) (k : String) :
    Table.find? (r.map fun e => (e.1, f e.2)) k = (r.find? k).map f := by
  induction r with
  | nil => rfl
  | cons e r ih =>
    obtain ⟨k', a⟩ := e
    simp only [Table.find?, List.map_cons, List.lookup_cons] at ih ⊢
    cases k == k' with
    | true => rfl
    | false => exact ih

namespace Ledger.Describes

/-- Closing the scope in a register drops the scope that the register keeps. -/
theorem leave (h : l.Describes m) (hl : l.Sound) (name : String) :
    (l.leave name).Describes (m.closeScope name) := by
  have hfind : m.locals.scopes.find? name = (l.registers.find? name).map (·.owner.id) := by
    rw [h.scopes, Table.find?_map _ fun t : Ticket => t.owner.id]
  rw [Ledger.leave, Machine.closeScope, hfind]
  cases hf : l.registers.find? name with
  | none => exact h
  | some t =>
    refine ⟨?_, ?_, h.owners, h.supply⟩
    · have ht : t ∈ l.held := hl.kept _ (Table.mem_of_find? hf)
      show m.stack.leave t.owner.id = (l.drop t).stack
      rw [h.stack, leave_stack hl ht]
    · show m.locals.scopes.erase name = _
      rw [h.scopes, Table.erase, List.filter_map]
      rfl

/-- A scope that is admitted is opened on the stack. -/
theorem enter (h : l.Describes m) (hl : l.Sound) (ho : l.admits o = .ok ()) :
    m.stack.enter o = .ok (l.issue o).stack := by
  rw [h.stack, enter_stack hl, ho]
  rfl

/-- What the account does not admit the stack refuses, with the same fault. -/
theorem enter_error (h : l.Describes m) (hl : l.Sound) {f : Fault} (ho : l.admits o = .error f) :
    m.stack.enter o = .error f := by
  rw [h.stack, enter_stack hl, ho]
  rfl

/-- A scope that is admitted is kept in its register instead of the scope there. -/
theorem openScope (h : l.Describes m) (hl : l.Sound) (ho : l.admits o = .ok ()) (into : String) :
    ∃ n, m.openScope into o = .ok n ∧
      (((l.issue o).leave into).keep into (l.ticket o)).Describes n := by
  have hissued : (l.issue o).Describes { m with stack := (l.issue o).stack } :=
    ⟨rfl, h.scopes, h.owners, h.supply⟩
  have hleft := hissued.leave (hl.issue (not_holds_of_admits ho)) into
  have hopen : m.openScope into o = .ok (Machine.keepScope
      ({ m with stack := (l.issue o).stack }.closeScope into) into o.id) := by
    rw [Machine.openScope, h.enter hl ho]
    rfl
  refine ⟨_, hopen, hleft.stack, ?_, hleft.owners, hleft.supply⟩
  show Table.set _ into o.id = _
  rw [hleft.scopes, Ledger.keep, Table.set, Table.set, Table.erase, List.filter_map]
  rfl

/-- What begins with the lookup of an owner goes on as the account does. -/
theorem withOwner (h : l.Describes m) {x : Owner → UserCode Reply}
    {f : Owner → Except Failure Reply × Ledger}
    (hx : ∀ o, ∃ n, (x o).run.run answers m = some ((f o).1, n) ∧ (f o).2.Describes n) :
    ∃ n, (lookupOwner name >>= x).run.run answers m = some ((l.withOwner name f).1, n) ∧
      (l.withOwner name f).2.Describes n := by
  have hlookup := run_lookupOwner answers m name
  rw [h.owners] at hlookup
  rw [Ledger.withOwner]
  cases ho : l.owners.content "owner" name with
  | ok o =>
    rw [ho] at hlookup
    rw [Eval.run_bind_ok hlookup]
    exact hx o
  | error e =>
    rw [ho] at hlookup
    exact ⟨m, Eval.run_bind_error hlookup _, h⟩

/-- A request is answered as the account says. -/
theorem answer (h : l.Describes m) (hl : l.Sound) (answers : Answerer) (r : ScopeRequest) :
    ∃ n, r.answer.run.run answers m = some ((l.answer r).1, n) ∧ (l.answer r).2.Describes n := by
  cases r with
  | declare owner label sameAs =>
    cases sameAs with
    | none =>
      refine ⟨_, rfl, h.stack, h.scopes, ?_, ?_⟩
      · show m.ownerRegisters.set owner ⟨m.supply, label⟩ = _
        rw [h.owners, h.supply]
        rfl
      · exact congrArg (· + 1) h.supply
    | some other =>
      simp only [ScopeRequest.answer, ownerIdentity, bind_assoc, pure_bind]
      refine h.withOwner fun o => ⟨_, rfl, h.stack, h.scopes, ?_, h.supply⟩
      exact congrArg (Table.set · owner ⟨o.id, label⟩) h.owners
  | enter owner into =>
    refine h.withOwner fun o => ?_
    cases ho : l.admits o with
    | ok u =>
      obtain ⟨n, hn, hd⟩ := h.openScope hl ho into
      refine ⟨n, ?_, hd⟩
      rw [Eval.run_lift_bind, Eval.run_bind_of (run_keepOpen_ok hn)]
      rfl
    | error f =>
      refine ⟨m, ?_, h⟩
      rw [Eval.run_lift_bind, Eval.run_bind_of (run_keepOpen_error (h.enter_error hl ho) into)]
      rfl
  | leave register => exact ⟨_, rfl, h.leave hl register⟩
  | isOpen owner =>
    refine h.withOwner fun o => ⟨m, ?_, h⟩
    rw [← isOpen_stack, ← h.stack]
    rfl
  | depth =>
    refine ⟨m, ?_, h⟩
    rw [Ledger.answer, ← depth_stack, ← h.stack]
    rfl
  | setLimit n =>
    refine ⟨_, rfl, ?_, h.scopes, h.owners, h.supply⟩
    exact congrArg (ScopeStack.setLimit · n) h.stack
  | limit =>
    refine ⟨m, ?_, h⟩
    have hlimit : m.stack.limit = l.limit := congrArg ScopeStack.limit h.stack
    rw [Ledger.answer, ← hlimit]
    rfl

end Ledger.Describes

end Runs

/-! ### Runs -/

namespace Ledger

variable {m : Machine}

/-- A step is answered by the rule for steps. -/
theorem run_step (s : Step) : (Ask.step s).run engine m = (evalStep s).run engine m := by
  rw [Ask.step, Eval.run_ask, engine_eq_rule]
  rfl

/-- The reply to a step is told by how the step is carried out. -/
theorem run_step_of {s : Step} {r : Except Failure Reply} {n : Machine}
    (h : (carryOut s).run.run engine m = some (r, n)) :
    (Ask.step s).run engine m = some (.ofResult r, n) := by
  rw [run_step, evalStep, Eval.run_bind_of h]
  rfl

/-- To run steps in a scope is to look up its owner first. -/
theorem run_tryRun_step {owner : String} {o : Owner} {body : List Step} {r : Reply} {n : Machine}
    (hlookup : (lookupOwner owner).run.run engine m = some (.ok o, m))
    (h : (tryRun o body).run engine m = some (r, n)) :
    (carryOut (.tryRun owner body)).run.run engine m = some (.ok r, n) := by
  rw [carryOut, Eval.run_bind_ok hlookup]
  exact Eval.run_bind_of h _

/-- Where the scope can be opened the steps are run in it, and it is closed. -/
theorem run_tryRun_of_ok {o : Owner} {body : List Step} {s : ScopeStack} {rs : List Reply}
    {n : Machine} (hs : m.stack.enter o = .ok s)
    (h : (runAll body).run engine { m with stack := s } = some (rs, n)) :
    (tryRun o body).run engine m =
      some (.replies rs, { n with stack := n.stack.leave o.id }) := by
  simp only [tryRun, Eval.within, Eval.run, hs, Eval.run_bind, h, Option.bind_some]
  rfl

/-- Where the scope cannot be opened, only the fallback is given. -/
theorem run_tryRun_of_error {o : Owner} {f : Fault} (hs : m.stack.enter o = .error f)
    (body : List Step) : (tryRun o body).run engine m = some (.text "fallback", m) := by
  simp only [tryRun, Eval.within, Eval.run, hs]
  rfl

mutual

/-- An operation is carried out as the account says. -/
theorem Describes.operate {l : Ledger} {m : Machine} (h : l.Describes m) (hl : l.Sound)
    (op : ScopeOp) :
    ∃ n, (Ask.step op.step).run engine m = some ((l.operate op).1, n) ∧
      (l.operate op).2.Describes n := by
  cases op with
  | request r =>
    obtain ⟨n, hr, hd⟩ := h.answer hl engine r
    exact ⟨n, run_step_of hr, hd⟩
  | tryRun owner body =>
    have hlookup := run_lookupOwner engine m owner
    rw [h.owners] at hlookup
    rw [Ledger.operate, ScopeOp.step]
    cases hfind : l.owners.content "owner" owner with
    | error e =>
      rw [hfind] at hlookup
      exact ⟨m, run_step_of (Eval.run_bind_error hlookup _), h⟩
    | ok o =>
      rw [hfind] at hlookup
      cases ho : l.admits o with
      | error f =>
        simp only [ho]
        exact ⟨m, run_step_of (run_tryRun_step hlookup
          (run_tryRun_of_error (h.enter_error hl ho) _)), h⟩
      | ok u =>
        simp only [ho]
        have hissued : (l.issue o).Describes { m with stack := (l.issue o).stack } :=
          ⟨rfl, h.scopes, h.owners, h.supply⟩
        have hsound := hl.issue (not_holds_of_admits ho)
        obtain ⟨n, hbody, hn⟩ := hissued.operateAll hsound body
        have hcont := hsound.operateAll body
        refine ⟨_, run_step_of (run_tryRun_step hlookup
          (run_tryRun_of_ok (h.enter hl ho) hbody)), ?_, hn.scopes, hn.owners, hn.supply⟩
        show n.stack.leave (l.ticket o).owner.id = _
        rw [hn.stack, leave_stack hcont.sound (hcont.loose _ hl.loose_issue).1]

/-- Operations are carried out as the account says. -/
theorem Describes.operateAll {l : Ledger} {m : Machine} (h : l.Describes m) (hl : l.Sound)
    (ops : List ScopeOp) :
    ∃ n, (runAll (ScopeOp.steps ops)).run engine m = some ((l.operateAll ops).1, n) ∧
      (l.operateAll ops).2.Describes n := by
  cases ops with
  | nil => exact ⟨m, rfl, h⟩
  | cons op ops =>
    obtain ⟨m₁, hop, h₁⟩ := h.operate hl op
    obtain ⟨n, hops, hn⟩ := h₁.operateAll (hl.operate op).sound ops
    refine ⟨n, ?_, hn⟩
    rw [ScopeOp.steps, runAll, Eval.run_bind_of hop, Eval.run_bind_of hops]
    rfl

end

/-- A thread that begins holds no scope. -/
theorem sound_start (m : Machine) : (start m).Sound where
  identities := List.nodup_nil
  numbers := List.nodup_nil
  numbered := nofun
  kept := nofun
  once := List.nodup_nil

/-- At its start a thread agrees with an account that holds nothing. -/
theorem describes_start (m : Machine) : (start m).Describes (Eval.newThread m) :=
  ⟨rfl, rfl, rfl, rfl⟩

/-- A scope that cannot be opened, by a request or for a part, changes nothing. -/
theorem run_refused {owner : String} {o : Owner} {f : Fault}
    (howner : m.ownerRegisters.find? owner = some o) (hs : m.stack.enter o = .error f) :
    (∀ into, (Ask.step (.scope (.enter owner into))).run engine m = some (.fault f, m)) ∧
      ∀ body, (Ask.step (.tryRun owner body)).run engine m = some (.text "fallback", m) := by
  have hlookup : (lookupOwner owner).run.run engine m = some (.ok o, m) := by
    rw [run_lookupOwner, Table.content, howner]
  refine ⟨fun into => run_step_of (r := .error (.fault f)) ?_, fun body =>
    run_step_of (run_tryRun_step hlookup (run_tryRun_of_error hs body))⟩
  show (lookupOwner owner >>= _).run.run engine m = _
  rw [Eval.run_bind_ok hlookup, Eval.run_lift_bind, Eval.run_bind_of (run_keepOpen_error hs into)]
  rfl

end Ledger

/-- Over every run of operations on the scopes of a thread, the replies are those of the account,
the stack follows the protocol for the owners of the scopes that are held, in the order in which
they were opened, and what the stack refuses changes nothing. -/
theorem runAll_heldScopes (ops : List ScopeOp) (m : Machine) :
    ∃ n, (runAll (ScopeOp.steps ops)).run engine (Eval.newThread m) =
        some (((Ledger.start m).operateAll ops).1, n) ∧
      n.stack.Follows (((Ledger.start m).operateAll ops).2.held.map (·.owner))
        ((Ledger.start m).operateAll ops).2.limit ∧
      ∀ owner o f, n.ownerRegisters.find? owner = some o → n.stack.enter o = .error f →
        (∀ into, (Ask.step (.scope (.enter owner into))).run engine n = some (.fault f, n)) ∧
          ∀ body, (Ask.step (.tryRun owner body)).run engine n = some (.text "fallback", n) := by
  have hsound := Ledger.sound_start m
  obtain ⟨n, hrun, hn⟩ := (Ledger.describes_start m).operateAll hsound ops
  refine ⟨n, hrun, ?_, fun owner o f howner hs => Ledger.run_refused howner hs⟩
  rw [hn.stack]
  exact Ledger.stack_follows (hsound.operateAll ops).sound

end ProviderGraph

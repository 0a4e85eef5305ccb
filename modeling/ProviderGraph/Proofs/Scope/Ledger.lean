import Mathlib.Data.List.Nodup
import Mathlib.Data.List.TakeWhile
import ProviderGraph.Proofs.Scope.Frames
import ProviderGraph.Session.Step

/-!
# An account of held scopes

The scopes of a thread, as the code that opens and closes them sees them. Every opening has a number
of its own, and its scope is held until it is dropped, by the register that keeps it or by the part
that runs inside it. A `Ledger` is an account of this in which no stack occurs. An account that makes
sense (`Ledger.Sound`) still does after every operation, and the stack that goes with it opens and
closes scopes as the account does.
-/

namespace ProviderGraph

/-! ### The protocol of a stack -/

/-- What a stack does when scopes are held for the given owners, in the order of opening. -/
structure ScopeStack.Follows (s : ScopeStack) (held : List Owner) (limit : Nat) : Prop where
  frames : s.frames.reverse = held
  distinct : (held.map (·.id)).Nodup
  depth : s.depth = held.length
  isOpen : ∀ i, s.isOpen i = true ↔ ∃ p ∈ held, p.id = i
  opened : ∀ o t, s.enter o = .ok t ↔
    (∀ p ∈ held, p.id ≠ o.id) ∧ held.length < limit ∧ t = ⟨o :: s.frames, limit⟩
  circular : ∀ o, (∃ cycle, s.enter o = .error (.circular cycle)) ↔ ∃ p ∈ held, p.id = o.id
  /-- A cycle leads from the scope that is held to the last one and back to the owner. -/
  cycle : ∀ before p after o, held = before ++ p :: after → p.id = o.id →
    s.enter o = .error (.circular ((p :: after).map (·.label) ++ [o.label]))
  tooDeep : ∀ o d k, s.enter o = .error (.tooDeep d k) ↔
    (∀ p ∈ held, p.id ≠ o.id) ∧ limit ≤ held.length ∧ d = held.length + 1 ∧ k = limit
  closed : ∀ before p after, held = before ++ p :: after →
    s.leave p.id = ⟨(before ++ after).reverse, limit⟩

/-- In a list of owners with distinct identities no other one has the identity of a member. -/
theorem id_ne_of_nodup {before after : List Owner} {p : Owner}
    (h : ((before ++ p :: after).map (·.id)).Nodup) : ∀ q ∈ before ++ after, q.id ≠ p.id := by
  rw [List.map_append, List.map_cons, List.nodup_middle, ← List.map_append, List.nodup_cons] at h
  exact fun q hq hid => h.1 (List.mem_map.mpr ⟨q, hq, hid⟩)

/-- A stack with distinct identities follows the protocol for its own frames. -/
theorem ScopeStack.follows {held : List Owner} (h : (held.map (·.id)).Nodup) (limit : Nat) :
    ScopeStack.Follows ⟨held.reverse, limit⟩ held limit := by
  have hopen : ∀ i, ScopeStack.isOpen ⟨held.reverse, limit⟩ i = true ↔ ∃ p ∈ held, p.id = i := by
    simp [ScopeStack.isOpen]
  have hclosed : ∀ i, ScopeStack.isOpen ⟨held.reverse, limit⟩ i = false ↔ ∀ p ∈ held, p.id ≠ i := by
    simp [ScopeStack.isOpen_eq_false_iff]
  have hdepth : ScopeStack.depth ⟨held.reverse, limit⟩ = held.length := List.length_reverse
  refine
    { frames := List.reverse_reverse held, distinct := h, depth := hdepth, isOpen := hopen,
      opened := ?opened, circular := ?circular, cycle := ?cycle, tooDeep := ?tooDeep,
      closed := ?closed }
  case opened =>
    intro o t
    rw [enter_eq_ok_iff, hclosed, hdepth]
  case circular =>
    intro o
    rw [← hopen, enter]
    split
    · next ho => simp [ho]
    · next ho => split <;> simp [ho]
  case cycle =>
    rintro before p after o rfl hid
    have hafter : ∀ q ∈ after.reverse, q.id ≠ p.id := fun q hq =>
      id_ne_of_nodup h q (List.mem_append_right _ (List.mem_reverse.mp hq))
    have hframes : (before ++ p :: after).reverse = after.reverse ++ p :: before.reverse := by simp
    rw [enter_of_isOpen _ _ ((hopen _).mpr ⟨p, by simp, hid⟩), ← hid,
      cycleFrom_append hafter hframes]
    simp
  case tooDeep =>
    intro o d k
    rw [← hclosed, enter, hdepth]
    split
    · next ho => simp [ho]
    · next ho =>
      rw [Bool.not_eq_true] at ho
      split
      · next hd => simp [ho, hd, eq_comm]
      · next hd => simp [ho, hd]
  case closed =>
    rintro before p after rfl
    have hafter : ∀ q ∈ after.reverse, ¬((q.id == p.id) = true) := fun q hq => by
      simpa using id_ne_of_nodup h q (List.mem_append_right _ (List.mem_reverse.mp hq))
    have hframes : (before ++ p :: after).reverse = after.reverse ++ p :: before.reverse := by simp
    rw [leave, hframes, List.eraseP_append_right _ hafter]
    simp

/-! ### Operations -/

/-- An operation on the scopes of a thread: a request, or operations in the scope of an owner. -/
inductive ScopeOp where
  | request (r : ScopeRequest)
  | tryRun (owner : String) (body : List ScopeOp)

mutual
def ScopeOp.step : ScopeOp → Step
  | .request r => .scope r
  | .tryRun owner body => .tryRun owner (steps body)

def ScopeOp.steps : List ScopeOp → List Step
  | [] => []
  | op :: ops => op.step :: steps ops
end

/-- A scope that is held: the number of its opening, and its owner. -/
structure Ticket where
  number : Nat
  owner : Owner

/-- An account of the scopes that are held. -/
structure Ledger where
  /-- The scopes, in the order in which they were opened. -/
  held : List Ticket
  /-- How many scopes were opened so far. -/
  opened : Nat
  limit : Nat
  registers : Table String Ticket
  owners : Table String Owner
  supply : Identity

namespace Ledger

variable (l : Ledger)

def start (m : Machine) : Ledger where
  held := []
  opened := 0
  limit := m.threadLimit
  registers := []
  owners := m.ownerRegisters
  supply := m.supply

def holds (i : Identity) : Bool := l.held.any (·.owner.id == i)

/-- Whether the scope of an owner may be opened: its identity must not be held, and the limit not be
reached. A cycle leads from the scope that is held to the last one and back to the owner. -/
def admits (o : Owner) : Except Fault Unit :=
  match l.held.dropWhile (·.owner.id != o.id) with
  | [] =>
    if l.limit ≤ l.held.length then .error (.tooDeep (l.held.length + 1) l.limit) else .ok ()
  | t :: ts => .error (.circular ((t :: ts).map (·.owner.label) ++ [o.label]))

def ticket (o : Owner) : Ticket := ⟨l.opened, o⟩

def issue (o : Owner) : Ledger :=
  { l with held := l.held ++ [l.ticket o], opened := l.opened + 1 }

def drop (t : Ticket) : Ledger := { l with held := l.held.filter (·.number != t.number) }

def leave (name : String) : Ledger :=
  match l.registers.find? name with
  | some t => { l.drop t with registers := l.registers.erase name }
  | none => l

def keep (name : String) (t : Ticket) : Ledger :=
  { l with registers := l.registers.set name t }

def withOwner (name : String) (next : Owner → Except Failure Reply × Ledger) :
    Except Failure Reply × Ledger :=
  match l.owners.content "owner" name with
  | .ok o => next o
  | .error e => (.error e, l)

/-- The answer to a request, and the account after it. -/
def answer : ScopeRequest → Except Failure Reply × Ledger
  | .declare owner label none =>
    (.ok (.text label),
      { l with owners := l.owners.set owner ⟨l.supply, label⟩, supply := l.supply + 1 })
  | .declare owner label (some other) => l.withOwner other fun o =>
    (.ok (.text label), { l with owners := l.owners.set owner ⟨o.id, label⟩ })
  | .enter owner into => l.withOwner owner fun o =>
    match l.admits o with
    | .ok () => (.ok .done, ((l.issue o).leave into).keep into (l.ticket o))
    | .error f => (.error (.fault f), l)
  | .leave register => (.ok .done, l.leave register)
  | .isOpen owner => l.withOwner owner fun o => (.ok (.flag (l.holds o.id)), l)
  | .depth => (.ok (.depth l.held.length), l)
  | .setLimit n => (.ok .done, { l with limit := n })
  | .limit => (.ok (.text (toString l.limit)), l)

mutual
/-- The reply to an operation, and the account after it. -/
def operate (l : Ledger) : ScopeOp → Reply × Ledger
  | .request r => (.ofResult (l.answer r).1, (l.answer r).2)
  | .tryRun owner body =>
    match l.owners.content "owner" owner with
    | .ok o =>
      match l.admits o with
      | .ok () =>
        let r := operateAll (l.issue o) body
        (.replies r.1, r.2.drop (l.ticket o))
      | .error _ => (.text "fallback", l)
    | .error e => (.ofResult (.error e), l)

/-- The replies to operations, and the account after them. -/
def operateAll (l : Ledger) : List ScopeOp → List Reply × Ledger
  | [] => ([], l)
  | op :: ops =>
    let r := l.operate op
    let s := r.2.operateAll ops
    (r.1 :: s.1, s.2)
end

/-! ### Accounts that make sense -/

/-- No identity is held twice, each opening has a number of its own, and the registers keep scopes
that are held, each of them once. -/
structure Sound : Prop where
  identities : (l.held.map (·.owner.id)).Nodup
  numbers : (l.held.map (·.number)).Nodup
  numbered : ∀ t ∈ l.held, t.number < l.opened
  kept : ∀ e ∈ l.registers, e.2 ∈ l.held
  once : (l.registers.map (·.2.number)).Nodup

/-- The scope is held, but not in a register. -/
def Loose (t : Ticket) : Prop := t ∈ l.held ∧ ∀ e ∈ l.registers, e.2.number ≠ t.number

/-- An account that makes sense and in which the scopes that are in no register are still held. -/
structure Continues (k : Ledger) : Prop where
  sound : k.Sound
  loose : ∀ t, l.Loose t → k.Loose t

variable {l} {k : Ledger} {o : Owner} {t u : Ticket} {name : String}

/-- An identity is held where a scope is held for it. -/
theorem holds_eq_true_iff {i : Identity} : l.holds i = true ↔ ∃ t ∈ l.held, t.owner.id = i := by
  simp [holds]

/-- A scope that is held already is refused with the cycle that leads from it inwards. -/
theorem admits_of_holds {before after : List Ticket} (h : l.held = before ++ t :: after)
    (hb : ∀ u ∈ before, u.owner.id ≠ o.id) (ht : t.owner.id = o.id) :
    l.admits o = .error (.circular ((t :: after).map (·.owner.label) ++ [o.label])) := by
  have hdrop : l.held.dropWhile (·.owner.id != o.id) = t :: after := by
    rw [h, List.dropWhile_append_of_pos (by simpa using hb)]
    simp [ht]
  simp [admits, hdrop]

/-- Without a cycle only the limit can refuse a scope. -/
theorem admits_of_not_holds (h : l.holds o.id = false) :
    l.admits o =
      if l.limit ≤ l.held.length then .error (.tooDeep (l.held.length + 1) l.limit) else .ok () := by
  have hdrop : l.held.dropWhile (·.owner.id != o.id) = [] := by
    simpa [holds, List.dropWhile_eq_nil_iff] using h
  simp [admits, hdrop]

/-- What may be opened is not held yet. -/
theorem not_holds_of_admits (h : l.admits o = .ok ()) : l.holds o.id = false := by
  rw [admits] at h
  split at h
  · next hdrop => simpa [holds, List.dropWhile_eq_nil_iff] using hdrop
  · cases h

theorem Continues.trans {j : Ledger} (h : l.Continues k) (h' : k.Continues j) : l.Continues j :=
  ⟨h'.sound, fun t ht => h'.loose t (h.loose t ht)⟩

namespace Sound

theorem refl (h : l.Sound) : l.Continues l := ⟨h, fun _ ht => ht⟩

/-- A register is emptied of the scope that it keeps, and no other one keeps that scope. -/
theorem number_ne (h : l.Sound) (hf : l.registers.find? name = some t)
    {e : String × Ticket} (he : e ∈ l.registers.erase name) : e.2.number ≠ t.number := by
  obtain ⟨he, hname⟩ := List.mem_filter.mp he
  intro hn
  have := List.inj_on_of_nodup_map h.once he (Table.mem_of_find? hf) hn
  simp [this] at hname

/-- An account makes sense after an opening. -/
theorem issue (h : l.Sound) (ho : l.holds o.id = false) : (l.issue o).Sound where
  identities := by
    have hne : ∀ t ∈ l.held, t.owner.id ≠ o.id := by simpa [holds] using ho
    simpa [Ledger.issue, ticket, List.nodup_append, h.identities] using hne
  numbers := by
    have hne : ∀ t ∈ l.held, t.number ≠ l.opened := fun t ht => Nat.ne_of_lt (h.numbered t ht)
    simpa [Ledger.issue, ticket, List.nodup_append, h.numbers] using hne
  numbered := by
    intro t ht
    rcases List.mem_append.mp ht with ht | ht
    · exact Nat.lt_succ_of_lt (h.numbered t ht)
    · obtain rfl := List.mem_singleton.mp ht
      exact Nat.lt_succ_self l.opened
  kept := fun e he => List.mem_append_left _ (h.kept e he)
  once := h.once

/-- A scope that was just opened is in no register. -/
theorem loose_issue (h : l.Sound) : (l.issue o).Loose (l.ticket o) :=
  ⟨by simp [Ledger.issue], fun e he => Nat.ne_of_lt (h.numbered _ (h.kept e he))⟩

/-- An account makes sense after a scope that is in no register was dropped. -/
theorem drop (h : l.Sound) (ht : ∀ e ∈ l.registers, e.2.number ≠ t.number) : (l.drop t).Sound where
  identities := h.identities.sublist (List.filter_sublist.map _)
  numbers := h.numbers.sublist (List.filter_sublist.map _)
  numbered := fun u hu => h.numbered u (List.mem_filter.mp hu).1
  kept := fun e he => List.mem_filter.mpr ⟨h.kept e he, by simpa using ht e he⟩
  once := h.once

/-- An account makes sense after the scope in a register was dropped. -/
theorem leave (h : l.Sound) (name : String) : l.Continues (l.leave name) := by
  rw [Ledger.leave]
  split
  · next t hf =>
    refine ⟨⟨?_, ?_, ?_, ?_, ?_⟩, ?_⟩
    · exact h.identities.sublist (List.filter_sublist.map _)
    · exact h.numbers.sublist (List.filter_sublist.map _)
    · exact fun u hu => h.numbered u (List.mem_filter.mp hu).1
    · intro e he
      exact List.mem_filter.mpr
        ⟨h.kept e (List.mem_filter.mp he).1, by simpa using h.number_ne hf he⟩
    · exact h.once.sublist (List.filter_sublist.map _)
    · intro u hu
      refine ⟨List.mem_filter.mpr ⟨hu.1, ?_⟩, fun e he => hu.2 e (List.mem_filter.mp he).1⟩
      simpa using (hu.2 _ (Table.mem_of_find? hf)).symm
  · exact h.refl

/-- An account makes sense after a scope was put into a register. -/
theorem keep (h : l.Sound) (ht : l.Loose t) (name : String) : (l.keep name t).Sound where
  identities := h.identities
  numbers := h.numbers
  numbered := h.numbered
  kept := by
    intro e he
    rcases List.mem_cons.mp he with rfl | he
    · exact ht.1
    · exact h.kept e (List.mem_filter.mp he).1
  once := by
    refine List.nodup_cons.mpr ⟨?_, h.once.sublist (List.filter_sublist.map _)⟩
    intro hmem
    obtain ⟨e, he, hn⟩ := List.mem_map.mp hmem
    exact ht.2 e (List.mem_filter.mp he).1 hn

end Sound

/-- The scope that a part runs in is dropped at its end, and it was still held. -/
theorem Sound.continues_drop {k : Ledger} {o : Owner} (h : l.Sound)
    (hk : (l.issue o).Continues k) : l.Continues (k.drop (l.ticket o)) := by
  obtain ⟨-, hloose⟩ := hk.loose _ h.loose_issue
  refine ⟨hk.sound.drop hloose, fun t ht => ?_⟩
  have hissued : (l.issue o).Loose t := ⟨List.mem_append_left _ ht.1, ht.2⟩
  obtain ⟨hheld, hkept⟩ := hk.loose t hissued
  refine ⟨List.mem_filter.mpr ⟨hheld, ?_⟩, hkept⟩
  simpa [ticket] using Nat.ne_of_lt (h.numbered t ht.1)

/-- An answered request leaves an account that makes sense. -/
theorem Sound.answer (h : l.Sound) (r : ScopeRequest) : l.Continues (l.answer r).2 := by
  cases r with
  | declare owner label sameAs =>
    cases sameAs with
    | none => exact ⟨⟨h.identities, h.numbers, h.numbered, h.kept, h.once⟩, fun _ ht => ht⟩
    | some other =>
      rw [Ledger.answer, withOwner]
      split
      · exact ⟨⟨h.identities, h.numbers, h.numbered, h.kept, h.once⟩, fun _ ht => ht⟩
      · exact h.refl
  | enter owner into =>
    rw [Ledger.answer, withOwner]
    split
    · next o _ =>
      cases ho : l.admits o with
      | ok u =>
        have hissue := h.issue (not_holds_of_admits ho)
        have hleft := hissue.leave into
        refine ⟨hleft.sound.keep (hleft.loose _ h.loose_issue) into, fun t ht => ?_⟩
        obtain ⟨hheld, hkept⟩ := hleft.loose t ⟨List.mem_append_left _ ht.1, ht.2⟩
        refine ⟨hheld, fun e he => ?_⟩
        rcases List.mem_cons.mp he with rfl | he
        · exact (Nat.ne_of_lt (h.numbered t ht.1)).symm
        · exact hkept e (List.mem_filter.mp he).1
      | error f => exact h.refl
    · exact h.refl
  | leave register => exact h.leave register
  | isOpen owner =>
    rw [Ledger.answer, withOwner]
    split <;> exact h.refl
  | depth | limit => exact h.refl
  | setLimit n => exact ⟨⟨h.identities, h.numbers, h.numbered, h.kept, h.once⟩, fun _ ht => ht⟩

mutual

/-- One operation leaves an account that makes sense. -/
theorem Sound.operate {l : Ledger} (h : l.Sound) (op : ScopeOp) :
    l.Continues (l.operate op).2 := by
  cases op with
  | request r => exact h.answer r
  | tryRun owner body =>
    rw [Ledger.operate]
    split
    · next o _ =>
      split
      · next ho => exact h.continues_drop ((h.issue (not_holds_of_admits ho)).operateAll body)
      · exact h.refl
    · exact h.refl

/-- Any operations leave an account that makes sense. -/
theorem Sound.operateAll {l : Ledger} (h : l.Sound) (ops : List ScopeOp) :
    l.Continues (l.operateAll ops).2 := by
  cases ops with
  | nil => exact h.refl
  | cons op ops =>
    have hop := h.operate op
    exact hop.trans (hop.sound.operateAll ops)

end

/-! ### The stack of an account -/

/-- The stack that has the frames of the scopes that are held. -/
def stack (l : Ledger) : ScopeStack := ⟨(l.held.map (·.owner)).reverse, l.limit⟩

@[simp] theorem depth_stack : l.stack.depth = l.held.length := by simp [stack, ScopeStack.depth]

/-- On the stack of an account a scope is open where it is held. -/
theorem isOpen_stack (i : Identity) : l.stack.isOpen i = l.holds i := by
  simp [stack, ScopeStack.isOpen, holds, Function.comp_def]

/-- The stack of an account does what is asked of a stack. -/
theorem stack_follows (h : l.Sound) : l.stack.Follows (l.held.map (·.owner)) l.limit :=
  ScopeStack.follows (by simpa [Function.comp_def] using h.identities) l.limit

/-- The stack lets a scope be opened when the account does. -/
theorem enter_stack (h : l.Sound) (o : Owner) :
    l.stack.enter o = (l.admits o).map fun _ => (l.issue o).stack := by
  cases ho : l.holds o.id with
  | false =>
    rw [ScopeStack.enter, isOpen_stack, ho, admits_of_not_holds ho, depth_stack]
    by_cases hlimit : l.limit ≤ l.held.length
    · simp [stack, hlimit, Except.map]
    · simp [stack, hlimit, Except.map, issue, ticket]
  | true =>
    obtain ⟨t, ht, hid⟩ := holds_eq_true_iff.mp ho
    obtain ⟨before, after, hheld⟩ := List.append_of_mem ht
    have hmap : l.held.map (·.owner) = before.map (·.owner) ++ t.owner :: after.map (·.owner) := by
      simp [hheld]
    have hb : ∀ u ∈ before, u.owner.id ≠ o.id := by
      intro u hu
      have hne := id_ne_of_nodup (hmap ▸ (stack_follows h).distinct) u.owner
        (List.mem_append_left _ (List.mem_map_of_mem hu))
      exact hid ▸ hne
    rw [(stack_follows h).cycle _ _ _ o hmap hid, admits_of_holds hheld hb hid]
    simp [Except.map, Function.comp_def]

/-- Closing the scope of an identity drops the one scope that is held for it. -/
theorem leave_stack (h : l.Sound) (ht : t ∈ l.held) :
    l.stack.leave t.owner.id = (l.drop t).stack := by
  obtain ⟨before, after, hheld⟩ := List.append_of_mem ht
  have hmap : l.held.map (·.owner) = before.map (·.owner) ++ t.owner :: after.map (·.owner) := by
    simp [hheld]
  have hdrop : (l.drop t).held = before ++ after := by
    have hnumbers := h.numbers
    rw [hheld, List.map_append, List.map_cons, List.nodup_middle, ← List.map_append,
      List.nodup_cons] at hnumbers
    have hne : ∀ u ∈ before ++ after, u.number ≠ t.number := fun u hu hn =>
      hnumbers.1 (List.mem_map.mpr ⟨u, hu, hn⟩)
    rw [drop, hheld, List.filter_append, List.filter_cons_of_neg (by simp), ← List.filter_append,
      List.filter_eq_self]
    simpa using hne
  rw [(stack_follows h).closed _ _ _ hmap, stack, hdrop, List.map_append]
  rfl

end Ledger

end ProviderGraph

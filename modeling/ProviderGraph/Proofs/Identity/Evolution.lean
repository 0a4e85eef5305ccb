import ProviderGraph.Proofs.Identity.OldAndNew

/-!
# Computations that change little

Providers whose code is pure hand out identities and count calls, and leave the machine as it is
otherwise. `Agrees` says so of a computation, and what its result is.
-/

namespace ProviderGraph

/-- Identities may have been handed out, calls counted and scopes opened or closed since, and
nothing else. -/
structure Machine.Evolves (m n : Machine) : Prop where
  supply_le : m.supply ≤ n.supply
  eq : n = { m with stack := n.stack, supply := n.supply, counters := n.counters }

namespace Machine.Evolves

variable {m n o : Machine}

theorem refl (m : Machine) : m.Evolves m := ⟨Nat.le_refl _, rfl⟩

theorem trans (h : m.Evolves n) (h' : n.Evolves o) : m.Evolves o where
  supply_le := Nat.le_trans h.supply_le h'.supply_le
  eq := by
    rw [h'.eq, h.eq]

theorem stack (h : m.Evolves n) (s : ScopeStack) : m.Evolves { n with stack := s } where
  supply_le := h.supply_le
  eq := by rw [h.eq]

theorem fresh (m : Machine) : m.Evolves { m with supply := m.supply + 1 } where
  supply_le := Nat.le_succ _
  eq := rfl

theorem bump (m : Machine) (i : Identity) : m.Evolves (m.bump i) where
  supply_le := Nat.le_refl _
  eq := rfl

/-- No property changes. -/
theorem property_eq (h : m.Evolves n) (i : Identity) : n.property i = m.property i := by
  rw [h.eq]
  rfl

end Machine.Evolves

/-- Identities may have been handed out since, and the registers hold what they held. -/
structure Machine.SameRegisters (m n : Machine) : Prop where
  supply_le : m.supply ≤ n.supply
  providerRegisters_eq : n.providerRegisters = m.providerRegisters
  propertyRegisters_eq : n.propertyRegisters = m.propertyRegisters

namespace Machine.SameRegisters

variable {m n o : Machine}

theorem refl (m : Machine) : m.SameRegisters m := ⟨Nat.le_refl _, rfl, rfl⟩

theorem trans (h : m.SameRegisters n) (h' : n.SameRegisters o) : m.SameRegisters o where
  supply_le := Nat.le_trans h.supply_le h'.supply_le
  providerRegisters_eq := h'.providerRegisters_eq.trans h.providerRegisters_eq
  propertyRegisters_eq := h'.propertyRegisters_eq.trans h.propertyRegisters_eq

/-- A new identity looks like the one that comes next on the old machine. -/
theorem min_supply (h : m.SameRegisters n) : min n.supply m.supply = m.supply :=
  Nat.min_eq_right h.supply_le

end Machine.SameRegisters

theorem Machine.Evolves.sameRegisters {m n : Machine} (h : m.Evolves n) : m.SameRegisters n where
  supply_le := h.supply_le
  providerRegisters_eq := by rw [h.eq]
  propertyRegisters_eq := by rw [h.eq]

/-- One result corresponds to another: both are the same error, or they are related by `R`. -/
inductive SameResult {ε α β : Type} (R : α → β → Prop) : Except ε α → Except ε β → Prop where
  | ok {a : α} {b : β} (h : R a b) : SameResult R (.ok a) (.ok b)
  | error (e : ε) : SameResult R (.error e) (.error e)

theorem SameResult.rfl {ε α : Type} {r : Except ε α} : SameResult (fun a b => a = b) r r := by
  cases r with
  | ok a => exact .ok (Eq.refl a)
  | error e => exact .error e

theorem SameResult.eq {ε α : Type} {r r' : Except ε α} (h : SameResult (fun a b => a = b) r r') :
    r = r' := by
  cases h with
  | ok h => exact congrArg _ h
  | error e => exact Eq.refl _

/-- The computation ends, changes little, and its result corresponds to `r`. The relation may refer
to the identities that were handed out by then. -/
def Agrees {ε α β : Type} (x : ExceptT ε Eval α) (m : Machine) (r : Except ε β)
    (R : Identity → α → β → Prop) : Prop :=
  ∃ a n, x.run.run engine m = some (a, n) ∧ m.Evolves n ∧ n.stack = m.stack ∧
    SameResult (R n.supply) a r

/-- What is asked for is found by its rule. -/
theorem Ask.run_rule (q : Query) (m : Machine) :
    (Eval.ask q pure).run engine m = (rule q).run engine m :=
  (Eval.run_ask _ _ _).trans (engine_eq_rule q m)

namespace Agrees

variable {ε α β γ δ : Type} {m : Machine} {R : Identity → α → β → Prop}
  {Q : Identity → γ → δ → Prop}

theorem pure {a : α} {b : β} (h : R m.supply a b) :
    Agrees (Pure.pure a : ExceptT ε Eval α) m (.ok b) R :=
  ⟨.ok a, m, rfl, .refl m, rfl, .ok h⟩

theorem throw (e : ε) : Agrees (MonadExcept.throw e : ExceptT ε Eval α) m (.error e) R :=
  ⟨.error e, m, rfl, .refl m, rfl, .error e⟩

theorem bind {x : ExceptT ε Eval α} {r : Except ε β} {f : α → ExceptT ε Eval γ}
    {g : β → Except ε δ} (hx : Agrees x m r R)
    (hf : ∀ a b n, m.Evolves n → n.stack = m.stack → r = .ok b → R n.supply a b →
      Agrees (f a) n (g b) Q) :
    Agrees (x >>= f) m (r >>= g) Q := by
  obtain ⟨a, n, hrun, hn, hs, hr⟩ := hx
  cases hr with
  | ok h =>
    obtain ⟨c, o, hrun', ho, hs', hr'⟩ := hf _ _ n hn hs rfl h
    exact ⟨c, o, (Eval.run_bind_ok hrun f).trans hrun', hn.trans ho, hs'.trans hs, hr'⟩
  | error e => exact ⟨.error e, n, Eval.run_bind_error hrun f, hn, hs, .error e⟩

/-- Whether a computation agrees with a result can be told by the rule that it runs by. -/
theorem of_rule {x y : ExceptT ε Eval α} {r : Except ε β} (hx : Agrees x m r R)
    (hy : y.run.run engine m = x.run.run engine m) : Agrees y m r R := by
  obtain ⟨a, n, hrun, h⟩ := hx
  exact ⟨a, n, hy.trans hrun, h⟩

/-- A part that leaves the machine as it is. -/
theorem ok_bind {x : ExceptT ε Eval α} {a : α} {f : α → ExceptT ε Eval γ} {r : Except ε δ}
    (hx : x.run.run engine m = some (.ok a, m)) (hf : Agrees (f a) m r Q) :
    Agrees (x >>= f) m r Q := by
  obtain ⟨c, o, hrun, ho⟩ := hf
  exact ⟨c, o, (Eval.run_bind_ok hx f).trans hrun, ho⟩

/-- A part that cannot fail. -/
theorem lift_bind {x : Eval α} {a : α} {n : Machine} {f : α → ExceptT ε Eval γ}
    {r : Except ε δ} (hx : x.run engine m = some (a, n)) (hn : m.Evolves n)
    (hs : n.stack = m.stack) (hf : Agrees (f a) n r Q) :
    Agrees ((liftM x : ExceptT ε Eval α) >>= f) m r Q := by
  obtain ⟨c, o, hrun, ho, hs', hr⟩ := hf
  refine ⟨c, o, ?_, hn.trans ho, hs'.trans hs, hr⟩
  rw [Eval.run_lift_bind, Eval.run_bind_of hx]
  exact hrun

/-- A new identity is taken. -/
theorem identity_bind {f : Identity → ExceptT ε Eval γ} {r : Except ε δ}
    (hf : Agrees (f m.supply) { m with supply := m.supply + 1 } r Q) :
    Agrees ((liftM Eval.identity : ExceptT ε Eval Identity) >>= f) m r Q :=
  lift_bind rfl (.fresh m) rfl hf

theorem property_bind {i : Identity} {f : Property → ExceptT ε Eval γ} {r : Except ε δ}
    (hf : Agrees (f (m.property i)) m r Q) :
    Agrees ((liftM (Eval.property i) : ExceptT ε Eval Property) >>= f) m r Q :=
  lift_bind rfl (.refl m) rfl hf

theorem imp {x : ExceptT ε Eval α} {r : Except ε β} {S : Identity → α → β → Prop}
    (hx : Agrees x m r R) (h : ∀ n a b, r = .ok b → R n a b → S n a b) : Agrees x m r S := by
  obtain ⟨a, n, hrun, hn, hs, hr⟩ := hx
  refine ⟨a, n, hrun, hn, hs, ?_⟩
  cases hr with
  | ok hr => exact .ok (h _ _ _ (Eq.refl _) hr)
  | error e => exact .error e

/-- What holds of all results may be forgotten. -/
theorem right {x : ExceptT ε Eval α} {r : Except ε β} {P : Prop}
    (hx : Agrees x m r fun hi a b => P ∧ R hi a b) : Agrees x m r R :=
  hx.imp fun _ _ _ _ h => h.2

end Agrees

end ProviderGraph

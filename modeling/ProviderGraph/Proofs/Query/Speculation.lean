import ProviderGraph.Proofs.Engine.Terms
import ProviderGraph.Proofs.Session.Courses

/-!
# Speculative queries

Whether a provider is present, what produces it, how it is classified, how it is shown and what a
lenient reading finds are asked speculatively. Where the code of a graph does not come back to the
engine, such a query leaves every property as it is and does no deed of a side effect, whatever it
ends with and whatever properties would be finalized by a strict reading. A strict reading does no
deed either, and all that it does to properties is to finalize some that ask for it
(`speculation_writes_nothing`).
-/

namespace ProviderGraph

/-! ### Code that stays outside the engine -/

/-- A class of code that does not come back to the engine. It has the parts of what it has. -/
structure Action.Outside (C : Action → Prop) : Prop where
  andThen {a b : Action} : C (.andThen a b) → C a ∧ C b
  both {a b : Action} : C (.both a b) → C a ∧ C b
  dispatch {f : Payload → Action} : C (.dispatch f) → ∀ x, C (f x)
  elsewhere {a : Action} : C (.elsewhere a) → C a
  perform {s : Step} : ¬ C (.perform s)
  inquire {q : Inquiry} {r : Recipe} : ¬ C (.inquire q r)
  assign {name : String} {a : Action} : ¬ C (.assign name a)
  finalize {name : String} : ¬ C (.finalize name)

/-- What runs when the recipe is followed, and what its providers call, is code of the class. Their
side effects may be any. -/
inductive Recipe.CallsOnly (C : Action → Prop) : Recipe → Prop where
  | register (name : String) : CallsOnly C (.register name)
  | fixed (x : Payload) : CallsOnly C (.fixed x)
  | undefined (type : PayloadType) : CallsOnly C (.undefined type)
  | changing (type : PayloadType) {code : Nat → Action} :
    (∀ n, C (code n)) → CallsOnly C (.changing type code)
  | produced (type : PayloadType) (node : Option String) {code : Nat → Action} :
    (∀ n, C (code n)) → CallsOnly C (.produced type node code)
  | property (name : String) : CallsOnly C (.property name)
  | map {base : Recipe} {f : Action} (type : PayloadType) :
    CallsOnly C base → C f → CallsOnly C (.map base f type)
  | flatMap {base choice : Recipe} (type : PayloadType) :
    CallsOnly C base → CallsOnly C choice → CallsOnly C (.flatMap base choice type)
  | orElse {left right : Recipe} :
    CallsOnly C left → CallsOnly C right → CallsOnly C (.orElse left right)
  | withEffect {inner : Recipe} (e : Effect) : CallsOnly C inner → CallsOnly C (.withEffect inner e)
  | named {inner : Recipe} (name : String) : CallsOnly C inner → CallsOnly C (.named inner name)
  | custom (form : CustomForm) {code : Nat → Action} (effect : Option Effect) :
    (∀ n, C (code n)) → CallsOnly C (.custom form code effect)
  | result {a : Action} : C a → CallsOnly C (.result a)
  | after {a : Action} {next : Recipe} : C a → CallsOnly C next → CallsOnly C (.after a next)
  | dispatch {f : Payload → Recipe} : (∀ x, CallsOnly C (f x)) → CallsOnly C (.dispatch f)

/-- What the provider and its parts call is code of the class. Their side effects may be any. -/
def Provider.CallsOnly (C : Action → Prop) : Provider → Prop
  | .fixed _ _ | .undefined _ _ _ | .property _ => True
  | .changing _ _ _ calls | .custom _ _ _ calls _ => ∀ n, C (calls.code n)
  | .map _ base f _ => base.CallsOnly C ∧ C f.code
  | .flatMap _ base choice _ => base.CallsOnly C ∧ choice.CallsOnly C
  | .orElse _ left right => left.CallsOnly C ∧ right.CallsOnly C
  | .withEffect _ inner _ | .named _ inner _ => inner.CallsOnly C

def Classification.CallsOnly (C : Action → Prop) : Classification → Prop
  | .changing p => p.CallsOnly C
  | .fixed _ _ | .missing _ => True

/-- What the properties and the registers call is code of the class. -/
structure Machine.CallsOnly (C : Action → Prop) (m : Machine) : Prop where
  effective (i : Identity) (q : Provider) : (m.property i).effective = some q → q.CallsOnly C
  providers (name : String) (q : Provider) : m.providerRegisters.find? name = some q → q.CallsOnly C

def Provider.isLeaf : Provider → Bool
  | .changing _ _ _ _ => true
  | _ => false

/-! ### Terms -/

/-- The property is as it was, or it asked to be finalized and a value is kept in it. -/
def Property.Ripens (s s' : Property) : Prop :=
  s' = s ∨ s.mustFinalize .strict = true ∧ ∃ frozen t, s' = s.commit frozen t

/-- What a reading may have made of the properties since the machine was `m`. -/
def Machine.ReadOnly (m : Machine) : Reading → Machine → Prop
  | .lenient, n => n.properties = m.properties
  | .strict, n => ∀ i, (m.property i).Ripens (n.property i)

/-- The terms of the questions that a reading of `m` comes to: but for leaves, only strict readings
come to strict ones, properties are finalized if they ask for it, and all code is of the class. -/
def Terms.reading (C : Action → Prop) (m : Machine) (c : Reading) : Terms where
  asks
    | .ownValue p c' => p.CallsOnly C ∧ (c' = .strict → c = .strict ∨ p.isLeaf = true)
    | .presence p _ | .producer p | .classification p | .text p _ => p.CallsOnly C
    | .finalize r => c = .strict ∧ (m.property r.id).finalizeOnRead = true
    | .act a _ _ => C a
    | .build r _ => r.CallsOnly C
    | .step _ => False
  gives
    | .classification _, r => ∀ k, r = .ok k → k.CallsOnly C
    | .build _ _, r => ∀ q, r = .ok (some q) → q.CallsOnly C
    | _, _ => True
  holds n := n.CallsOnly C ∧ m.ReadOnly c n
  congr := by
    rintro n n' hp hr ⟨⟨heff, hprov⟩, hread⟩
    have hprop : ∀ i, n'.property i = n.property i := fun i => by
      rw [Machine.property, hp]
      rfl
    refine ⟨⟨fun i q hq => heff i q (hprop i ▸ hq), fun name q hq => hprov name q (hr ▸ hq)⟩, ?_⟩
    cases c with
    | lenient => exact hp.trans hread
    | strict => exact fun i => hprop i ▸ hread i

variable {C : Action → Prop} {m n : Machine} {c : Reading} {p : Provider} {α : Type}

namespace Property.Ripens

variable {s s' : Property}

/-- A reading leaves the mark of a property. -/
theorem finalizeOnRead_eq (h : s.Ripens s') : s'.finalizeOnRead = s.finalizeOnRead := by
  rcases h with rfl | ⟨-, frozen, t, rfl⟩
  · rfl
  · rw [commit]
    split <;> rfl

/-- A value is kept if none is, and nothing happens otherwise. -/
theorem commit (h : s.Ripens s') (hs : s.finalizeOnRead = true) (frozen : Provider)
    (t : Producer) : s.Ripens (s'.commit frozen t) := by
  cases hf : s.finalized with
  | true =>
    -- a property that is finalized already stays as it is
    obtain rfl : s' = s := h.resolve_right fun hm => by simp [mustFinalize, hf] at hm
    exact .inl (commit_of_finalized hf _ _)
  | false =>
    have hm : s.mustFinalize .strict = true := by simp [mustFinalize, hs, hf]
    rcases h with rfl | ⟨-, frozen', t', rfl⟩
    · exact .inr ⟨hm, frozen, t, rfl⟩
    · rw [commit_of_finalized (finalized_commit _ _ _)]
      exact .inr ⟨hm, frozen', t', rfl⟩

end Property.Ripens

theorem Machine.ReadOnly.finalizeOnRead_eq (h : m.ReadOnly c n) (i : Identity) :
    (n.property i).finalizeOnRead = (m.property i).finalizeOnRead := by
  cases c with
  | strict => exact (h i).finalizeOnRead_eq
  | lenient =>
    have h : n.properties = m.properties := h
    rw [Machine.property, h]
    rfl

/-! ### Parts of the rules -/

section Parts

open Terms (reading)

theorem Recipe.CallsOnly.build {r : Recipe} (hr : r.CallsOnly C) (held : Option Payload) :
    Keeping (reading C m c) (Ask.build r held) fun q => ∀ p, q = some p → p.CallsOnly C :=
  (Keeping.ask (T := reading C m c) (q := .build r held) hr).imp fun _ h _ hq p hp =>
    h p (hp ▸ hq)

theorem keeps_act {a : Action} (ha : C a) (held : Option Payload) (x : Payload) :
    (Ask.act a held x).KeepsTo (reading C m c) fun _ => True :=
  (Keeping.ask (T := reading C m c) (q := .act a held x) ha).imp fun _ _ => trivial

theorem keeps_action {a : Action} (ha : C a) (held : Option Payload) (x : Payload) :
    Keeping (reading C m c) (Ask.action a held x) fun _ => True :=
  (keeps_act ha held x).imp fun _ _ _ _ => trivial

theorem Provider.CallsOnly.text (hp : p.CallsOnly C) :
    (Ask.text p).KeepsTo (reading C m c) fun _ => True :=
  (Keeping.ask (T := reading C m c) (q := .text p p.kind) hp).imp fun _ _ => trivial

theorem Provider.CallsOnly.value (hp : p.CallsOnly C) {c' : Reading}
    (hc : c' = .strict → c = .strict) :
    Keeping (reading C m c) (Ask.value p c') fun _ => True :=
  .bind (P := fun _ => True)
    ((Keeping.ask (T := reading C m c) (q := .ownValue p c') ⟨hp, fun h => .inl (hc h)⟩).imp
      fun _ _ _ _ => trivial) fun _ _ => .pure trivial

theorem keeps_change {ch : Change} (h : ∀ n, (reading C m c).holds n →
    (reading C m c).holds (n.after ch)) :
    (Eval.apply ch).KeepsTo (reading C m c) fun _ => True := ⟨h, trivial⟩

theorem keeps_note (e : Event) : (Eval.note e).KeepsTo (reading C m c) fun _ => True :=
  keeps_change fun n hn => (reading C m c).congr (m := n) rfl rfl hn

theorem keeps_nextCall {calls : Calls} (h : ∀ n, C (calls.code n)) :
    (nextCall calls).KeepsTo (reading C m c) fun _ => True := by
  rw [nextCall, Eval.keepsTo_bind]
  intro n _
  refine ⟨fun k hk => (reading C m c).congr (m := k) rfl rfl hk, ?_⟩
  exact keeps_act (h _) _ _

theorem keeps_settle (name : String) (r : Except Failure α) :
    Keeping (reading C m c) (settle (pure name) r) fun _ => True := by
  have hname : (pure name : Eval String).KeepsTo (reading C m c) fun _ => True := trivial
  exact .settle hname fun _ _ => trivial

theorem Provider.CallsOnly.applyTransform (hp : p.CallsOnly C) {f : Closure} (hf : C f.code)
    (x : Payload) : Keeping (reading C m c) (applyTransform p f x) fun _ => True :=
  .bind (P := fun _ => True) (.within (.lift (keeps_act hf _ _))) fun _ _ =>
    .settle hp.text fun _ _ => trivial

theorem keeps_freshUndefined (type : PayloadType) (path : List String) :
    (freshUndefined type path).KeepsTo (reading C m c) fun q => q.CallsOnly C := fun _ => trivial

theorem keeps_freshFixed (x : Payload) :
    (freshFixed x).KeepsTo (reading C m c) fun q => q.CallsOnly C := fun _ => trivial

theorem Provider.CallsOnly.wrapEffect (hp : p.CallsOnly C) (e : Option Effect) :
    (wrapEffect p e).KeepsTo (reading C m c) fun q => q.CallsOnly C := by
  cases e with
  | none => exact hp
  | some e => exact fun _ => hp

theorem Classification.CallsOnly.toProvider {k : Classification} (hk : k.CallsOnly C)
    (type : PayloadType) :
    (k.toProvider type).KeepsTo (reading C m c) fun q => q.CallsOnly C := by
  cases k with
  | fixed x e =>
    rw [Classification.toProvider, Eval.keepsTo_bind]
    exact (keeps_freshFixed x).imp fun _ hq => hq.wrapEffect e
  | changing q => exact hk
  | missing path => exact keeps_freshUndefined type path

theorem Provider.CallsOnly.chooseNext (hp : p.CallsOnly C) {choice : Recipe}
    (hc : choice.CallsOnly C) (type : PayloadType) (v : Outcome) :
    Keeping (reading C m c) (chooseNext p choice type v) fun q => q.CallsOnly C := by
  refine .bind (P := fun r => ∀ q, r = .ok (some q) → q.CallsOnly C) (.within (.lift ?_)) ?_
  · cases v.payload? with
    | some x => exact Eval.KeepsTo.imp (hc.build (some x)) fun r h q hq => h (some q) hq q rfl
    | none => exact fun q hq => nomatch hq
  · intro r hr
    refine .bind (P := fun q? => ∀ q, q? = some q → q.CallsOnly C)
      (.settle hp.text fun q? hq q h => hr q (h ▸ hq)) fun q? hq => ?_
    cases q? with
    | some q => exact .lift ((hq q rfl).wrapEffect _)
    | none => exact .lift (keeps_freshUndefined type [])

theorem Provider.CallsOnly.backing (hp : p.CallsOnly C) {base : Provider} (hb : base.CallsOnly C)
    {choice : Recipe} (hc : choice.CallsOnly C) (type : PayloadType) :
    Keeping (reading C m c) (backing p base choice type) fun q => q.CallsOnly C := by
  refine .bind (.within (hb.value nofun)) fun v _ => ?_
  split
  · exact .lift (keeps_freshUndefined type [])
  · exact hp.chooseNext hc type v

theorem keeps_presence (hp : p.CallsOnly C) (c' : Reading) :
    Keeping (reading C m c) (Ask.presence p c') fun _ => True :=
  (Keeping.ask (T := reading C m c) (q := .presence p c') hp).imp fun _ _ _ _ => trivial

theorem keeps_producer (hp : p.CallsOnly C) :
    Keeping (reading C m c) (Ask.producer p) fun _ => True :=
  (Keeping.ask (T := reading C m c) (q := .producer p) hp).imp fun _ _ _ _ => trivial

theorem keeps_classification (hp : p.CallsOnly C) :
    Keeping (reading C m c) (Ask.classification p) fun k => k.CallsOnly C :=
  (Keeping.ask (T := reading C m c) (q := .classification p) hp).imp fun _ h => h

/-- Asking for a value keeps to the terms of the reading. -/
theorem keeps_ownValue (hp : p.CallsOnly C) {c' : Reading}
    (hc : c' = .strict → c = .strict ∨ p.isLeaf = true) :
    Keeping (reading C m c) (Ask.ownValue p c') fun _ => True :=
  (Keeping.ask (T := reading C m c) (q := .ownValue p c') ⟨hp, hc⟩).imp fun _ _ _ _ => trivial

/-! ### Rules of a provider -/

/-- A property is finalized before a strict reading only, and only if it asks for it. -/
theorem keeps_finalizeFor (r : PropertyRef) {c' : Reading} (hc : c' = .strict → c = .strict) :
    Keeping (reading C m c) (finalizeFor r c') fun _ => True := by
  refine .property fun n hn => ?_
  split
  · next hmust =>
    obtain ⟨hstrict, hmark, -⟩ := Property.mustFinalize_eq_true_iff.mp hmust
    rw [hn.2.finalizeOnRead_eq] at hmark
    exact (Keeping.ask (T := reading C m c) (q := .finalize r) ⟨hc hstrict, hmark⟩).imp
      fun _ _ _ _ => trivial
  · exact .pure trivial

/-- The rule for values keeps to the terms of the reading. -/
theorem keeps_evalValue (hp : p.CallsOnly C) {c' : Reading}
    (hc : c' = .strict → c = .strict ∨ p.isLeaf = true) :
    Keeping (reading C m c) (evalValue p c') fun _ => True := by
  cases p with
  | fixed | undefined => exact .pure trivial
  | changing i type node calls =>
    refine .bind (.lift (keeps_nextCall hp)) fun r _ => ?_
    exact .bind (keeps_settle _ r) fun _ _ => .pure trivial
  | map i base f type =>
    have hc (h : c' = .strict) := (hc h).resolve_right nofun
    refine .bind (.within (hp.1.value hc)) fun v _ => ?_
    cases v with
    | missing path => exact .pure trivial
    | present x e =>
      have hp : (Provider.map i base f type).CallsOnly C := hp
      exact .bind (hp.applyTransform hp.2 x) fun _ _ => .pure trivial
  | flatMap i base choice type =>
    have hc (h : c' = .strict) := (hc h).resolve_right nofun
    refine .bind (.within (hp.1.value hc)) fun v _ => ?_
    split
    · exact .pure trivial
    · have hp : (Provider.flatMap i base choice type).CallsOnly C := hp
      exact .bind (hp.chooseNext hp.2 type v) fun q hq => .within (hq.value hc)
  | orElse i left right =>
    have hc (h : c' = .strict) := (hc h).resolve_right nofun
    refine .bind (.within (hp.1.value hc)) fun l _ => ?_
    split
    · refine .bind (.within (hp.2.value hc)) fun r _ => ?_
      split <;> exact .pure trivial
    · exact .pure trivial
  | withEffect i inner e =>
    have hc (h : c' = .strict) := (hc h).resolve_right nofun
    exact .bind (.within (Provider.CallsOnly.value (p := inner) hp hc)) fun _ _ => .pure trivial
  | named i inner name =>
    have hc (h : c' = .strict) := (hc h).resolve_right nofun
    exact .within (Provider.CallsOnly.value (p := inner) hp hc)
  | property r =>
    have hc (h : c' = .strict) := (hc h).resolve_right nofun
    refine .bind (keeps_finalizeFor r hc) fun _ _ => .property fun n hn => ?_
    split
    · next q hq => exact .within ((hn.1.effective _ q hq).value hc)
    · exact .pure trivial
  | custom i form producer calls effect =>
    refine .bind (.lift (keeps_note _)) fun _ _ => ?_
    refine .bind (.lift (keeps_nextCall hp)) fun r _ => ?_
    refine .bind (keeps_settle _ r) fun y _ => ?_
    cases y <;> exact .pure trivial

theorem keeps_evaluatedPresence (hp : p.CallsOnly C) :
    Keeping (reading C m c) (evaluatedPresence p) fun _ => True :=
  .bind (keeps_ownValue hp nofun) fun _ _ => .pure trivial

/-- The rule for presence keeps to the terms of the reading. -/
theorem keeps_evalPresence (hp : p.CallsOnly C) (c' : Reading) :
    Keeping (reading C m c) (evalPresence p c') fun _ => True := by
  cases p with
  | fixed | undefined => exact .pure trivial
  | changing i type node calls =>
    cases node with
    | some name => exact .pure trivial
    | none => exact .bind (keeps_ownValue hp fun _ => .inr rfl) fun _ _ => .pure trivial
  | map => exact keeps_evaluatedPresence hp
  | flatMap i base choice type =>
    exact .bind (Provider.CallsOnly.backing hp hp.1 hp.2 type) fun q hq =>
      .within (keeps_presence hq _)
  | orElse i left right =>
    refine .bind (.within (keeps_presence hp.1 c')) fun b _ => ?_
    split
    · exact .pure trivial
    · exact .within (keeps_presence hp.2 c')
  | withEffect i inner e => exact .within (keeps_presence (p := inner) hp c')
  | named i inner name => exact .within (keeps_presence (p := inner) hp c')
  | property r =>
    refine .property fun n hn => ?_
    split
    · next q hq => exact .within (keeps_presence (hn.1.effective _ q hq) c')
    · exact .pure trivial
  | custom i form producer calls effect =>
    rw [evalPresence]
    split
    · exact keeps_evaluatedPresence hp
    · refine .bind (.lift (keeps_note _)) fun _ _ => ?_
      split
      · exact .pure trivial
      · refine .bind (.lift (keeps_nextCall hp)) fun r _ => ?_
        exact .bind (keeps_settle _ r) fun _ _ => .pure trivial

/-- The rule for producers keeps to the terms of the reading. -/
theorem keeps_evalProducer (hp : p.CallsOnly C) :
    Keeping (reading C m c) (evalProducer p) fun _ => True := by
  cases p with
  | fixed | undefined => exact .pure trivial
  | changing i type node calls => cases node <;> exact .pure trivial
  | map i base f type => exact .within (keeps_producer hp.1)
  | flatMap i base choice type =>
    exact .bind (Provider.CallsOnly.backing hp hp.1 hp.2 type) fun q hq =>
      .within (keeps_producer hq)
  | orElse i left right =>
    refine .bind (.within (keeps_producer hp.1)) fun _ _ => ?_
    exact .bind (.within (keeps_producer hp.2)) fun _ _ => .pure trivial
  | withEffect i inner e => exact .within (keeps_producer (p := inner) hp)
  | named i inner name => exact .within (keeps_producer (p := inner) hp)
  | property r =>
    refine .property fun n hn => ?_
    split
    · exact .pure trivial
    · next q _ hq =>
      exact .bind (.within (keeps_producer (hn.1.effective _ q hq))) fun _ _ => .pure trivial
    · exact .pure trivial
  | custom => exact .bind (.lift (keeps_note _)) fun _ _ => .pure trivial

theorem Classification.CallsOnly.addEffect {k : Classification} (hk : k.CallsOnly C) (e : Effect) :
    (k.addEffect e).KeepsTo (reading C m c) fun k => k.CallsOnly C := by
  cases k with
  | fixed | missing => exact trivial
  | changing q => exact fun _ => hk

theorem Classification.CallsOnly.addName {k : Classification} (hk : k.CallsOnly C) (name : String) :
    (k.addName name).KeepsTo (reading C m c) fun k => k.CallsOnly C := by
  cases k with
  | fixed | missing => exact trivial
  | changing q => exact fun _ => hk

theorem keeps_identity : Eval.identity.KeepsTo (reading C m c) fun _ => True := fun _ => trivial

/-- The rule for classifications keeps to the terms of the reading. -/
theorem keeps_evalClassification (hp : p.CallsOnly C) :
    Keeping (reading C m c) (evalClassification p) fun k => k.CallsOnly C := by
  cases p with
  | fixed | undefined => exact .pure trivial
  | changing i type node calls => exact .bind (.lift keeps_identity) fun _ _ => .pure hp
  | map i base f type =>
    refine .bind (.within (keeps_classification hp.1)) fun k hk => ?_
    cases k with
    | missing path => exact .pure trivial
    | changing q => exact .bind (.lift keeps_identity) fun _ _ => .pure ⟨hk, hp.2⟩
    | fixed x e =>
      refine .bind (Provider.CallsOnly.applyTransform hp hp.2 x) fun y _ => ?_
      cases y <;> exact .pure trivial
  | flatMap i base choice type =>
    refine .bind (.within (keeps_classification hp.1)) fun k hk => ?_
    cases k with
    | missing path => exact .pure trivial
    | changing q => exact .bind (.lift keeps_identity) fun _ _ => .pure ⟨hk, hp.2⟩
    | fixed x e =>
      exact .bind (Provider.CallsOnly.chooseNext hp hp.2 type _) fun q hq =>
        .within (keeps_classification hq)
  | orElse i left right =>
    refine .bind (.within (keeps_classification hp.1)) fun l hl => ?_
    split
    · exact .pure hl
    · refine .bind (.within (keeps_classification hp.2)) fun r hr => ?_
      split
      · exact .pure hr
      · split
        · exact .pure hl
        · refine .bind (.lift (hl.toProvider _)) fun p hp => ?_
          refine .bind (.lift (hr.toProvider _)) fun q hq => ?_
          exact .bind (.lift keeps_identity) fun _ _ => .pure ⟨hp, hq⟩
  | withEffect i inner e =>
    exact .bind (.within (keeps_classification (p := inner) hp)) fun k hk => .lift (hk.addEffect e)
  | named i inner name =>
    exact .bind (.within (keeps_classification (p := inner) hp)) fun k hk =>
      .lift (hk.addName name)
  | property r =>
    refine .property fun n hn => ?_
    split
    · next q hq => exact .within (keeps_classification (hn.1.effective _ q hq))
    · exact .pure trivial
  | custom i form producer calls effect =>
    refine .bind (.lift (keeps_note _)) fun _ _ => ?_
    refine .bind (.lift (keeps_nextCall hp)) fun r _ => ?_
    refine .bind (keeps_settle _ r) fun y _ => ?_
    cases y <;> exact .pure trivial

theorem keeps_describe (hp : p.CallsOnly C) :
    (describe p).KeepsTo (reading C m c) fun _ => True := by
  have map {q : Provider} {f : String → String} (hq : q.CallsOnly C) :
      (do return f (← Ask.text q)).KeepsTo (reading C m c) fun _ => True :=
    (Eval.keepsTo_bind _ _).mpr (hq.text.imp fun _ _ => trivial)
  cases p with
  | fixed | undefined | changing | named => trivial
  | map i base f type => exact map hp.1
  | flatMap i base choice type => exact map hp.1
  | orElse i left right =>
    refine (Eval.keepsTo_bind _ _).mpr (hp.1.text.imp fun l _ => ?_)
    exact map (f := fun r => "or(" ++ l ++ ", " ++ r ++ ")") hp.2
  | withEffect i inner e => exact Provider.CallsOnly.text (p := inner) hp
  | property r =>
    rw [describe]
    split
    · trivial
    · have hread : (Eval.property r.id).KeepsTo (reading C m c) fun s =>
          ∀ q, s.effective = some q → q.CallsOnly C := fun _ hn => hn.1.effective _
      refine (Eval.keepsTo_bind _ _).mpr (hread.imp fun s hs => ?_)
      split
      · next q hq => exact map (f := fun s => "property(" ++ s ++ ")") (hs q hq)
      · trivial
  | custom i form =>
    rw [describe]
    split <;> trivial

theorem keeps_render (hp : p.CallsOnly C) (label : String) :
    (render p label).KeepsTo (reading C m c) fun _ => True :=
  And.intro (fun _ => trivial) (keeps_describe hp)

/-! ### Finalization -/

theorem keeps_computeFrozen (hc : c = .strict) (r : PropertyRef) {held : Option Provider}
    (hq : ∀ q, held = some q → q.CallsOnly C) :
    Keeping (reading C m c) (computeFrozen r held) fun f => f.1.CallsOnly C := by
  cases held with
  | none => exact .bind (.lift (keeps_freshUndefined _ _)) fun _ h => .pure h
  | some q =>
    refine .bind (.within (keeps_producer (hq q rfl))) fun t _ => ?_
    refine .bind (.within ((hq q rfl).value fun _ => hc)) fun v _ => ?_
    have hv : (Classification.ofValue v).CallsOnly C := by cases v <;> trivial
    exact .bind (.lift (hv.toProvider _)) fun _ h => .pure h

/-- A property that asks for it may be finalized. -/
theorem holds_commit {r : PropertyRef} {n k : Machine} (hmark : (m.property r.id).finalizeOnRead)
    (hn : (reading C m .strict).holds n) (hk : (reading C m .strict).holds k) {frozen : Provider}
    (hf : frozen.CallsOnly C) (t : Producer) :
    (reading C m .strict).holds
      (k.setProperty r.id ((n.property r.id).commit frozen t)) := by
  refine ⟨⟨fun i q hq => ?_, hk.1.providers⟩, fun i => ?_⟩
  · by_cases hi : i = r.id
    · subst hi
      rw [Machine.property_setProperty_self, Property.commit] at hq
      split at hq
      · exact hn.1.effective _ q hq
      · cases hq
        exact hf
    · rw [Machine.property_setProperty_of_ne _ hi] at hq
      exact hk.1.effective i q hq
  · by_cases hi : i = r.id
    · subst hi
      rw [Machine.property_setProperty_self]
      exact (hn.2 r.id).commit hmark frozen t
    · rw [Machine.property_setProperty_of_ne _ hi]
      exact hk.2 i

/-- In a strict reading a property that asked for it may be finalized. -/
theorem keeps_evalFinalize {r : PropertyRef} (hc : c = .strict)
    (hmark : (m.property r.id).finalizeOnRead = true) :
    Keeping (reading C m c) (evalFinalize r) fun _ => True := by
  subst hc
  refine .property fun n hn => ?_
  split
  · exact .pure trivial
  · refine .bind (keeps_computeFrozen rfl r fun q hq => hn.1.effective _ q hq) fun f hf => ?_
    refine .lift ((Eval.keepsTo_bind _ _).mpr fun k hk => ?_)
    exact keeps_change fun k' hk' => holds_commit hmark hk hk' hf f.2

/-! ### User code -/

theorem keeps_evalAction (hC : Action.Outside C) {a : Action} (ha : C a) (held : Option Payload)
    (x : Payload) : Keeping (reading C m c) (evalAction a held x) fun _ => True := by
  cases a with
  | compute f =>
    rw [evalAction]
    split
    · exact .pure trivial
    · exact .throw _
  | held => exact .pure trivial
  | andThen first second =>
    refine .bind (keeps_action (hC.andThen ha).1 held x) fun y _ => ?_
    split
    · exact keeps_action (hC.andThen ha).2 held _
    · exact .pure trivial
  | both left right =>
    refine .bind (keeps_action (hC.both ha).1 held x) fun y _ => ?_
    refine .bind (keeps_action (hC.both ha).2 held x) fun z _ => ?_
    split <;> exact .pure trivial
  | dispatch f => exact keeps_action (hC.dispatch ha x) held x
  | record label => exact .bind (.lift (keeps_note _)) fun _ _ => .pure trivial
  | perform s => exact absurd ha hC.perform
  | elsewhere a =>
    exact Eval.KeepsTo.imp (keeps_act (hC.elsewhere ha) held x) fun _ _ _ _ => trivial
  | inquire q r => exact absurd ha hC.inquire
  | assign name a => exact absurd ha hC.assign
  | finalize name => exact absurd ha hC.finalize
  | depth => exact .bind (.lift fun _ _ => trivial) fun _ _ => .pure trivial

theorem keeps_lookupProvider (name : String) :
    Keeping (reading C m c) (lookupProvider name) fun q => q.CallsOnly C := by
  refine fun n hn => Keeping.ofExcept (ε := Failure) (n.providerRegisters.content _ name)
    fun q hq => ?_
  rw [Table.content] at hq
  cases hfind : n.providerRegisters.find? name with
  | none =>
    rw [hfind] at hq
    cases hq
  | some q' =>
    rw [hfind] at hq
    cases hq
    exact hn.1.providers name q hfind

theorem Recipe.CallsOnly.withPart {r : Recipe} (hr : r.CallsOnly C) {held : Option Payload}
    {next : Provider → UserCode Provider}
    (hn : ∀ p, p.CallsOnly C → Keeping (reading C m c) (next p) fun q => q.CallsOnly C) :
    Keeping (reading C m c) (withPart r held next) fun q => ∀ p, q = some p → p.CallsOnly C := by
  refine .bind (hr.build held) fun q hq => ?_
  cases q with
  | none => exact .pure nofun
  | some q =>
    show Keeping _ (some <$> next q) _
    rw [map_eq_pure_bind]
    exact .bind (hn q (hq q rfl)) fun p hp => .pure fun _ h => Option.some.inj h ▸ hp

theorem keeps_freshCalls {code : Nat → Action} (h : ∀ n, C (code n)) (held : Option Payload) :
    (freshCalls code held).KeepsTo (reading C m c) fun calls => ∀ n, C (calls.code n) := fun _ => h

/-- What a recipe builds calls nothing but code of the class. -/
theorem keeps_evalRecipe {r : Recipe} (hr : r.CallsOnly C) (held : Option Payload) :
    Keeping (reading C m c) (evalRecipe r held) fun q => ∀ p, q = some p → p.CallsOnly C := by
  have done {p : Provider} (hp : p.CallsOnly C) :
      Keeping (reading C m c) (pure (some p) : UserCode (Option Provider))
        fun q => ∀ p, q = some p → p.CallsOnly C := .pure fun _ h => Option.some.inj h ▸ hp
  cases hr with
  | register name =>
    rw [evalRecipe, map_eq_pure_bind]
    exact .bind (keeps_lookupProvider name) fun _ hp => done hp
  | fixed x => exact .bind (.lift (keeps_freshFixed x)) fun _ hp => done hp
  | undefined type => exact .bind (.lift (keeps_freshUndefined type [])) fun _ hp => done hp
  | changing type hcode =>
    refine .bind (.lift keeps_identity) fun i _ => ?_
    exact .bind (.lift (keeps_freshCalls hcode held)) fun calls h =>
      done (p := .changing i type none calls) h
  | produced type node hcode =>
    refine .bind (.ofExcept (P := fun _ => True) _ fun _ _ => trivial) fun name _ => ?_
    refine .bind (.lift keeps_identity) fun i _ => ?_
    exact .bind (.lift (keeps_freshCalls hcode held)) fun calls h =>
      done (p := .changing i type (some name) calls) h
  | property name =>
    refine .bind (P := fun _ => True) ?_ fun r _ => done (p := .property r) trivial
    exact fun n _ => Keeping.ofExcept _ fun _ _ => trivial
  | map type hb hf =>
    exact hb.withPart fun p hp => .bind (.lift keeps_identity) fun _ _ => .pure ⟨hp, hf⟩
  | flatMap type hb hc =>
    exact hb.withPart fun p hp => .bind (.lift keeps_identity) fun _ _ => .pure ⟨hp, hc⟩
  | orElse hl hr =>
    refine .bind (hl.build held) fun l hl => ?_
    cases l with
    | none => exact .pure nofun
    | some l =>
      exact hr.withPart fun p hp => .bind (.lift keeps_identity) fun _ _ => .pure ⟨hl l rfl, hp⟩
  | withEffect e hi =>
    exact hi.withPart fun p hp => .bind (.lift keeps_identity) fun _ _ => .pure hp
  | named name hi =>
    exact hi.withPart fun p hp => .bind (.lift keeps_identity) fun _ _ => .pure hp
  | custom form effect hcode =>
    refine .bind (.lift (x := Eval.machine) (P := fun _ => True) fun _ _ => trivial)
      fun n _ => ?_
    refine .bind (.lift keeps_identity) fun i _ => ?_
    exact .bind (.lift (keeps_freshCalls hcode held)) fun calls h =>
      done (p := .custom i form _ calls effect) h
  | result ha =>
    refine .bind (.ofExcept (P := fun _ => True) _ fun _ _ => trivial) fun x _ => ?_
    refine .bind (keeps_action ha held x) fun y _ => ?_
    cases y with
    | none => exact .pure nofun
    | some y => exact .bind (.lift (keeps_freshFixed y)) fun _ hp => done hp
  | after ha hn =>
    refine .bind (.ofExcept (P := fun _ => True) _ fun _ _ => trivial) fun x _ => ?_
    refine .bind (keeps_action ha held x) fun y _ => ?_
    cases y with
    | none => exact .pure nofun
    | some y => exact hn.build held
  | dispatch hf =>
    exact .bind (.ofExcept (P := fun _ => True) _ fun _ _ => trivial) fun x _ =>
      (hf x).build held

/-- The rules of all questions that a reading comes to keep to its terms. -/
theorem Action.Outside.kept (hC : Action.Outside C) (m : Machine) (c : Reading) :
    (reading C m c).Kept := by
  intro q hq
  cases q with
  | ownValue p c' => exact Eval.KeepsTo.imp (keeps_evalValue hq.1 hq.2) fun _ _ => trivial
  | presence p c' => exact Eval.KeepsTo.imp (keeps_evalPresence hq c') fun _ _ => trivial
  | producer p => exact Eval.KeepsTo.imp (keeps_evalProducer hq) fun _ _ => trivial
  | classification p => exact keeps_evalClassification hq
  | text p label => exact (keeps_render hq label).imp fun _ _ => trivial
  | finalize r => exact Eval.KeepsTo.imp (keeps_evalFinalize hq.1 hq.2) fun _ _ => trivial
  | act a held x => exact Eval.KeepsTo.imp (keeps_evalAction hC hq held x) fun _ _ => trivial
  | build r held =>
    exact Eval.KeepsTo.imp (keeps_evalRecipe hq held) fun _ h p hp => h (some p) hp p rfl
  | step s => exact hq.elim

end Parts

/-! ### Queries -/

/-- What is asked of a provider without meaning to evaluate it for good. -/
inductive Eval.Speculates : Provider → {α : Type} → Eval α → Prop where
  | value (p : Provider) : Speculates p (Ask.value p .lenient).run
  | ownValue (p : Provider) : Speculates p (Ask.ownValue p .lenient).run
  | presence (p : Provider) (c : Reading) : Speculates p (Ask.presence p c).run
  | isPresent (p : Provider) : Speculates p (Ask.isPresent p).run
  | producer (p : Provider) : Speculates p (Ask.producer p).run
  | classification (p : Provider) : Speculates p (Ask.classification p).run
  | text (p : Provider) : Speculates p (Ask.text p)
  | propertyText (r : PropertyRef) : Speculates (.property r) (Ask.propertyText r)

/-- In the course of the evaluation on the machine `m` the action runs. -/
def Eval.RunsCode (x : Eval α) (m : Machine) (a : Action) : Prop :=
  ∃ q n held y k, x.Raises m q n ∧ Brings q n (.act a held y) k

/-- What is asked without meaning to evaluate keeps to the terms of the reading. -/
theorem Eval.Speculates.keepsTo {x : Eval α} (hx : x.Speculates p) (hp : p.CallsOnly C) :
    x.KeepsTo (.reading C m c) fun _ => True := by
  cases hx with
  | value => exact Eval.KeepsTo.imp (hp.value nofun) fun _ _ => trivial
  | ownValue => exact Eval.KeepsTo.imp (keeps_ownValue hp nofun) fun _ _ => trivial
  | presence _ c' => exact Eval.KeepsTo.imp (keeps_presence hp c') fun _ _ => trivial
  | isPresent => exact Eval.KeepsTo.imp (keeps_presence hp .lenient) fun _ _ => trivial
  | producer => exact Eval.KeepsTo.imp (keeps_producer hp) fun _ _ => trivial
  | classification => exact Eval.KeepsTo.imp (keeps_classification hp) fun _ _ => trivial
  | text => exact hp.text
  | propertyText r =>
    exact (Keeping.ask (T := .reading C m c) (q := .text (.property r) r.label) hp).imp
      fun _ _ => trivial

/-- A machine whose code is of the class is within the terms. -/
theorem Machine.CallsOnly.holds (hm : m.CallsOnly C) (c : Reading) :
    (Terms.reading C m c).holds m := by
  refine ⟨hm, ?_⟩
  cases c with
  | lenient => exact rfl
  | strict => exact fun _ => .inl rfl

/-- All code that runs in the course of an evaluation is of the class. -/
theorem Action.Outside.runs (hC : Action.Outside C) (hm : m.CallsOnly C) {x : Eval α}
    {P : α → Prop} (hx : x.KeepsTo (.reading C m c) P) {a : Action} (h : x.RunsCode m a) :
    C a := by
  obtain ⟨q, n, held, y, k, hraises, hbrings⟩ := h
  obtain ⟨hasks, hn⟩ := (hC.kept m c).raises hx (hm.holds c) hraises
  exact ((hC.kept m c).brings hasks hn hbrings).1

/-- Where the code that a graph calls stays outside the engine, speculative queries leave all
properties as they are, and a strict reading finalizes some that ask for it. None of them runs any
other code than what the graph calls, so no side effect. -/
theorem speculation_writes_nothing (hC : Action.Outside C) (hm : m.CallsOnly C)
    (hp : p.CallsOnly C) :
    (∀ (α : Type) (x : Eval α), x.Speculates p →
      (∀ a, x.RunsCode m a → C a) ∧
        ∀ a n, x.run engine m = some (a, n) → n.properties = m.properties) ∧
    (∀ a, (Ask.value p .strict).run.RunsCode m a → C a) ∧
    ∀ r n, (Ask.value p .strict).run.run engine m = some (r, n) →
      ∀ i, (m.property i).Ripens (n.property i) := by
  have hstrict : Keeping (.reading C m .strict) (Ask.value p .strict) fun _ => True :=
    hp.value fun _ => rfl
  refine ⟨fun α x hx => ⟨fun a h => ?_, fun a n h => ?_⟩, fun a h => ?_, fun r n h i => ?_⟩
  · exact hC.runs (c := .lenient) hm (hx.keepsTo hp) h
  · exact ((hC.kept m .lenient).run (hx.keepsTo hp) (hm.holds .lenient) h).1.2
  · exact hC.runs hm hstrict h
  · exact ((hC.kept m .strict).run hstrict (hm.holds .strict) h).1.2 i

/-- A session with a property that is finalized by strict readings. Its value has an effect. -/
def eagerSession : List Step :=
  [.newProperty "p" .int none,
    .setProvider "p" (.withEffect (.map (.fixed (.int 1)) (.compute fun x => .ok (x.add x)) .int)
      (.deed (.record "e"))),
    .property "p" .finalizeOnRead]

def eagerMachine : Machine := (Session.played 9 eagerSession (.fresh 8)).getD (.fresh 8)

def eagerChoice : Provider :=
  .flatMap 9 (.property ⟨0, .int, none⟩) (.result (.compute fun x => .ok (some x))) .int

/-- Functions of a payload stay outside the engine. -/
theorem Action.outside_compute : Action.Outside fun a => ∃ f, a = .compute f where
  andThen := fun ⟨_, h⟩ => nomatch h
  both := fun ⟨_, h⟩ => nomatch h
  dispatch := fun ⟨_, h⟩ => nomatch h
  elsewhere := fun ⟨_, h⟩ => nomatch h
  perform := fun ⟨_, h⟩ => nomatch h
  inquire := fun ⟨_, h⟩ => nomatch h
  assign := fun ⟨_, h⟩ => nomatch h
  finalize := fun ⟨_, h⟩ => nomatch h

theorem eagerMachine_calls : eagerMachine.CallsOnly fun a => ∃ f, a = .compute f where
  effective i q h := by
    by_cases hi : i = 0
    · subst hi
      obtain rfl := Option.some.inj h
      exact ⟨trivial, _, rfl⟩
    · have hblank : eagerMachine.property i = .blank := by
        have hset : eagerMachine.properties = Table.set [] 0 (eagerMachine.property 0) := rfl
        rw [Machine.property, hset, Table.find?_set_of_ne _ _ _ _ hi]
        rfl
      rw [hblank] at h
      cases h
  providers name q h := nomatch h

theorem speculation_writes_nothing_eagerChoice :
    (Action.Outside fun a => ∃ f, a = .compute f) ∧
      (∃ n, (Ask.presence eagerChoice .strict).run.run engine eagerMachine = some (.ok true, n) ∧
        n.properties = eagerMachine.properties) ∧
      (¬ (Ask.value eagerChoice .strict).run.RunsCode eagerMachine (.record "e")) ∧
      ∃ r n, (Ask.value eagerChoice .strict).run.run engine eagerMachine = some (r, n) ∧
        (n.property 0).finalized = true ∧ (eagerMachine.property 0).Ripens (n.property 0) := by
  have hp : eagerChoice.CallsOnly fun a => ∃ f, a = .compute f := ⟨trivial, .result ⟨_, rfl⟩⟩
  obtain ⟨hspec, hcode, hstrict⟩ :=
    speculation_writes_nothing Action.outside_compute eagerMachine_calls hp
  have hdeed : ¬ (Ask.value eagerChoice .strict).run.RunsCode eagerMachine (.record "e") :=
    fun h => by simpa using hcode _ h
  refine ⟨Action.outside_compute, ?_, hdeed, ?_⟩
  · have hrun : ∃ n, (Ask.presence eagerChoice .strict).run.run engine eagerMachine =
        some (.ok true, n) := ⟨_, Eval.run_engine_of_answer 9 rfl⟩
    obtain ⟨n, hrun⟩ := hrun
    exact ⟨n, hrun, (hspec _ _ (.presence _ .strict)).2 _ n hrun⟩
  · have hrun : ∃ r n, (Ask.value eagerChoice .strict).run.run engine eagerMachine =
        some (r, n) ∧ (n.property 0).finalized = true :=
      ⟨_, _, Eval.run_engine_of_answer 9 rfl, rfl⟩
    obtain ⟨r, n, hrun, hfin⟩ := hrun
    exact ⟨r, n, hrun, hfin, hstrict r n hrun 0⟩

end ProviderGraph

import ProviderGraph.Engine
import ProviderGraph.Proofs.Identity.RenamedEvaluations

/-!
# Rules under a renaming

The rule of a question carries over to the rule of the renamed question. This module holds the rules
of all questions but steps. None of them looks at an identity, other than to open a scope.
-/

namespace ProviderGraph

variable {ρ : Renaming} {α β : Type}

open Eval (Carries)

/-! ### What rules ask -/

namespace Ask

variable (p : Provider) (c : Reading)

theorem ownValue_transports : Transports ρ id (ownValue p c) (ownValue (p.rename ρ) c) :=
  Transports.id_iff.mpr <| .query (.ownValue p c)

theorem presence_transports : Transports ρ id (presence p c) (presence (p.rename ρ) c) :=
  Transports.id_iff.mpr <| .query (.presence p c)

theorem producer_transports : Transports ρ id (producer p) (producer (p.rename ρ)) :=
  Transports.id_iff.mpr <| .query (.producer p)

theorem classification_transports :
    Transports ρ (Classification.rename ρ) (classification p) (classification (p.rename ρ)) :=
  .query (.classification p)

theorem finalize_transports (r : PropertyRef) :
    Transports ρ id (finalize r) (finalize (r.rename ρ)) :=
  Transports.id_iff.mpr <| .query (.finalize r)

theorem action_transports (a : Action) (held : Option Payload) (x : Payload) :
    Transports ρ id (action a held x) (action a held x) :=
  Transports.id_iff.mpr <| .query (.act a held x)

theorem build_transports (r : Recipe) (held : Option Payload) :
    Transports ρ (Option.map (Provider.rename ρ)) (build r held) (build r held) :=
  .query (.build r held)

theorem act_carries (a : Action) (held : Option Payload) (x : Payload) :
    Carries ρ id (act a held x) (act a held x) := .query (.act a held x)

theorem step_carries (s : Step) : Carries ρ (Reply.rename ρ) (step s) (step s) := .query (.step s)

theorem text_carries : Carries ρ id (text p) (text (p.rename ρ)) := by
  rw [text, text, Provider.kind_rename]
  exact .query (.text p p.kind)

theorem propertyText_carries (r : PropertyRef) :
    Carries ρ id (propertyText r) (propertyText (r.rename ρ)) :=
  .query (.text (.property r) r.label)

theorem value_transports : Transports ρ id (value p c) (value (p.rename ρ) c) := by
  rw [value, value, Provider.declaredName_rename]
  exact (ownValue_transports p c).andThen fun _ => .same _

end Ask

open Ask

/-! ### Parts of rules -/

theorem Provider.owner_rename (p : Provider) : (p.rename ρ).owner = p.owner.rename ρ := by
  cases p <;> rfl

/-- The scope of a provider. -/
theorem Transports.scope {f : α → β} (p : Provider) {x : Attempt α} {x' : Attempt β}
    (hx : Transports ρ f x x') :
    Transports ρ f (ProviderGraph.within p.owner x)
      (ProviderGraph.within (p.rename ρ).owner x') := by
  rw [p.owner_rename]
  exact .within p.owner hx

theorem nextCall_carries (calls : Calls) :
    Carries ρ id (nextCall calls) (nextCall (calls.rename ρ)) := by
  refine Carries.machine.bind fun m => ?_
  rw [show (calls.rename ρ).counter = ρ calls.counter from rfl, Machine.count_rename]
  exact (Carries.apply (.bump calls.counter)).andThen fun _ => act_carries _ _ _

theorem settle_transports {culprit culprit' : Eval String} (hc : Carries ρ id culprit culprit')
    (r : Except Failure α) : Transports ρ id (settle culprit r) (settle culprit' r) := by
  have h := Transports.settle (f := id) hc r
  rwa [Except.map_id] at h

theorem applyTransform_transports (p : Provider) (f : Closure) (x : Payload) :
    Transports ρ id (applyTransform p f x) (applyTransform (p.rename ρ) f x) := by
  refine (Transports.scope p (.lift (act_carries _ _ _))).andThen fun r => ?_
  exact settle_transports (text_carries p) r

theorem freshUndefined_carries (type : PayloadType) (path : List String) :
    Carries ρ (Provider.rename ρ) (freshUndefined type path) (freshUndefined type path) :=
  Carries.identity.bind fun i => .pure (Provider.undefined i type path)

theorem freshFixed_carries (x : Payload) :
    Carries ρ (Provider.rename ρ) (freshFixed x) (freshFixed x) :=
  Carries.identity.bind fun i => .pure (Provider.fixed i x)

theorem wrapEffect_carries (p : Provider) (e : Option Effect) :
    Carries ρ (Provider.rename ρ) (wrapEffect p e) (wrapEffect (p.rename ρ) e) := by
  cases e with
  | none => exact .pure p
  | some e => exact Carries.identity.bind fun i => .pure (Provider.withEffect i p e)

/-- A flat map goes on with the renamed provider. -/
theorem chooseNext_transports (p : Provider) (choice : Recipe) (type : PayloadType) (v : Outcome) :
    Transports ρ (Provider.rename ρ) (chooseNext p choice type v)
      (chooseNext (p.rename ρ) choice type v) := by
  refine Transports.bind (f := Except.map (Option.map (Provider.rename ρ)))
    (.scope p (.lift ?_)) fun chosen => ?_
  · cases v.payload? with
    | some x => exact build_transports choice (some x)
    | none => exact .done rfl
  · refine Transports.bind (.settle (text_carries p) chosen) fun q => ?_
    cases q with
    | some q => exact .lift (wrapEffect_carries q _)
    | none => exact .lift (freshUndefined_carries type [])

/-- Presence and producers of a flat map go through the renamed provider. -/
theorem backing_transports (p base : Provider) (choice : Recipe) (type : PayloadType) :
    Transports ρ (Provider.rename ρ) (backing p base choice type)
      (backing (p.rename ρ) (base.rename ρ) choice type) := by
  refine (Transports.scope p (value_transports base .lenient)).andThen fun v => ?_
  split
  · exact .lift (freshUndefined_carries type [])
  · exact chooseNext_transports p choice type v

/-- A renamed classification is turned into the renamed provider. -/
theorem toProvider_carries (type : PayloadType) (c : Classification) :
    Carries ρ (Provider.rename ρ) (c.toProvider type) ((c.rename ρ).toProvider type) := by
  cases c with
  | fixed x e => exact (freshFixed_carries x).bind fun p => wrapEffect_carries p e
  | changing p => exact .pure p
  | missing path => exact freshUndefined_carries type path

/-! ### Questions to a provider -/

section Questions

variable (p : Provider)

theorem finalizeFor_transports (r : PropertyRef) (c : Reading) :
    Transports ρ id (finalizeFor r c) (finalizeFor (r.rename ρ) c) := by
  refine Transports.bind (.lift (.property r.id)) fun s => ?_
  rw [Property.mustFinalize_rename]
  split
  · exact finalize_transports r
  · exact .same _

/-- What a property reads from is asked in the scope of the property. -/
theorem asked_transports {f : α → β} (r : PropertyRef) (held : Option Provider)
    {question : Provider → Attempt α} {question' : Provider → Attempt β} {a : α} {b : β}
    (hq : ∀ q, Transports ρ f (question q) (question' (q.rename ρ))) (hab : f a = b) :
    Transports ρ f
      (match held with
        | some q => within (Provider.property r).owner (question q)
        | none => pure a : Attempt α)
      (match held.map (Provider.rename ρ) with
        | some q => within (Provider.property (r.rename ρ)).owner (question' q)
        | none => pure b : Attempt β) := by
  cases held with
  | some q => exact .scope (.property r) (hq q)
  | none => exact hab ▸ .pure a

/-- The renamed provider finds the same value. -/
theorem evalValue_transports (c : Reading) :
    Transports ρ id (evalValue p c) (evalValue (p.rename ρ) c) := by
  cases p with
  | fixed | undefined => exact .same _
  | changing i type node calls =>
    refine Transports.andThen (.lift (nextCall_carries calls)) fun r => ?_
    exact (settle_transports (.pure _) r).andThen fun _ => .same _
  | map i base f type =>
    refine (Transports.scope (.map i base f type) (value_transports base c)).andThen fun v => ?_
    cases v with
    | missing path => exact .same _
    | present x e =>
      exact (applyTransform_transports (.map i base f type) f x).andThen fun _ => .same _
  | flatMap i base choice type =>
    have scope {α β : Type} {f : α → β} {x x'} (hx : Transports ρ f x x') :=
      Transports.scope (.flatMap i base choice type) hx
    refine (scope (value_transports base c)).andThen fun v => ?_
    split
    · exact .same _
    · exact (chooseNext_transports (.flatMap i base choice type) choice type v).bind fun q =>
        scope (value_transports q c)
  | orElse i left right =>
    have scope {α β : Type} {f : α → β} {x x'} (hx : Transports ρ f x x') :=
      Transports.scope (.orElse i left right) hx
    refine (scope (value_transports left c)).andThen fun l => ?_
    split
    · refine (scope (value_transports right c)).andThen fun r => ?_
      split <;> exact .same _
    · exact .same _
  | withEffect i inner e =>
    exact (Transports.scope (.withEffect i inner e) (value_transports inner c)).andThen fun _ =>
      .same _
  | named i inner name => exact .scope (.named i inner name) (value_transports inner c)
  | property r =>
    refine (finalizeFor_transports r c).andThen fun _ => ?_
    refine Transports.bind (.lift (.property r.id)) fun s => ?_
    rw [Property.effective_rename]
    exact asked_transports r s.effective (fun q => value_transports q c) rfl
  | custom i form producer calls effect =>
    refine Transports.andThen (.lift (.apply (.note _))) fun _ => ?_
    refine Transports.andThen (.lift (nextCall_carries calls)) fun r => ?_
    refine (settle_transports (.pure _) r).andThen fun y => ?_
    cases y <;> exact .same _

theorem evaluatedPresence_transports :
    Transports ρ id (evaluatedPresence p) (evaluatedPresence (p.rename ρ)) :=
  (ownValue_transports p .lenient).andThen fun _ => .same _

/-- The renamed provider is present where the provider is. -/
theorem evalPresence_transports (c : Reading) :
    Transports ρ id (evalPresence p c) (evalPresence (p.rename ρ) c) := by
  cases p with
  | fixed | undefined => exact .same _
  | changing i type node calls =>
    cases node with
    | some name => exact .same _
    | none => exact (ownValue_transports (.changing i type none calls) c).andThen fun _ => .same _
  | map i base f type => exact evaluatedPresence_transports (.map i base f type)
  | flatMap i base choice type =>
    refine (backing_transports (.flatMap i base choice type) base choice type).bind fun q => ?_
    exact .scope (.flatMap i base choice type) (presence_transports q .lenient)
  | orElse i left right =>
    have scope {x x' : Attempt Bool} (hx : Transports ρ id x x') :=
      Transports.scope (.orElse i left right) hx
    refine (scope (presence_transports left c)).andThen fun b => ?_
    split
    · exact .same _
    · exact scope (presence_transports right c)
  | withEffect i inner e => exact .scope (.withEffect i inner e) (presence_transports inner c)
  | named i inner name => exact .scope (.named i inner name) (presence_transports inner c)
  | property r =>
    refine Transports.bind (.lift (.property r.id)) fun s => ?_
    rw [Property.effective_rename]
    exact asked_transports r s.effective (fun q => presence_transports q c) rfl
  | custom i form producer calls effect =>
    have calls_transports : Transports ρ id
        (do return (← settle (pure form.label) (← nextCall calls)).isSome : Attempt Bool)
        (do return (← settle (pure form.label) (← nextCall (calls.rename ρ))).isSome) :=
      Transports.andThen (.lift (nextCall_carries calls)) fun r =>
        (settle_transports (.pure _) r).andThen fun _ => .same _
    rw [evalPresence, Provider.rename, evalPresence]
    cases form.kind with
    | plain => exact evaluatedPresence_transports (.custom i form producer calls effect)
    | spy =>
      refine Transports.andThen (.lift (.apply (.note _))) fun _ => ?_
      cases form.presence with
      | some b => exact .same _
      | none => exact calls_transports

/-- The renamed provider has the same producers. -/
theorem evalProducer_transports :
    Transports ρ id (evalProducer p) (evalProducer (p.rename ρ)) := by
  cases p with
  | fixed | undefined => exact .same _
  | changing i type node calls => cases node <;> exact .same _
  | map i base f type => exact .scope (.map i base f type) (producer_transports base)
  | withEffect i inner e => exact .scope (.withEffect i inner e) (producer_transports inner)
  | named i inner name => exact .scope (.named i inner name) (producer_transports inner)
  | flatMap i base choice type =>
    refine (backing_transports (.flatMap i base choice type) base choice type).bind fun q => ?_
    exact .scope (.flatMap i base choice type) (producer_transports q)
  | orElse i left right =>
    refine (Transports.scope (.orElse i left right) (producer_transports left)).andThen fun _ => ?_
    exact (Transports.scope (.orElse i left right) (producer_transports right)).andThen fun _ =>
      .same _
  | property r =>
    refine Transports.bind (.lift (.property r.id)) fun s => ?_
    rw [Property.effective_rename, show (s.rename ρ).frozenProducer = s.frozenProducer from rfl,
      show (s.rename ρ).attached = s.attached from rfl]
    cases s.frozenProducer with
    | some t => exact .same _
    | none =>
      cases s.effective with
      | some q =>
        exact (Transports.scope (.property r) (producer_transports q)).andThen fun _ => .same _
      | none => exact .same _
  | custom i form producer calls effect =>
    exact Transports.andThen (.lift (.apply (.note _))) fun _ => .same _

theorem addEffect_carries (c : Classification) (e : Effect) :
    Carries ρ (Classification.rename ρ) (c.addEffect e) ((c.rename ρ).addEffect e) := by
  cases c with
  | fixed x old => exact .pure (Classification.fixed x _)
  | missing path => exact .pure (Classification.missing path)
  | changing p =>
    exact Carries.identity.bind fun i => .pure (Classification.changing (.withEffect i p e))

theorem addName_carries (c : Classification) (name : String) :
    Carries ρ (Classification.rename ρ) (c.addName name) ((c.rename ρ).addName name) := by
  cases c with
  | fixed x e => exact .pure (Classification.fixed x e)
  | missing path => exact .pure (Classification.missing _)
  | changing p =>
    exact Carries.identity.bind fun i => .pure (Classification.changing (.named i p name))

/-- The renamed provider has the renamed classification. -/
theorem evalClassification_transports :
    Transports ρ (Classification.rename ρ) (evalClassification p)
      (evalClassification (p.rename ρ)) := by
  have rebuilt (f : Identity → Provider) {f' : Identity → Provider}
      (hf : ∀ i, (f i).rename ρ = f' (ρ i)) : Transports ρ (Classification.rename ρ)
      (do return .changing (f (← Eval.identity)) : Attempt Classification)
      (do return .changing (f' (← Eval.identity))) :=
    Transports.bind (.lift .identity) fun i => hf i ▸ .pure (Classification.changing (f i))
  cases p with
  | fixed i x => exact .pure (Classification.fixed x none)
  | undefined i type path => exact .pure (Classification.missing path)
  | changing i type node calls => exact rebuilt (.changing · type node calls) fun _ => rfl
  | map i base f type =>
    refine (Transports.scope (.map i base f type) (classification_transports base)).bind fun c => ?_
    cases c with
    | missing path => exact .pure (Classification.missing path)
    | changing q => exact rebuilt (.map · q f type) fun _ => rfl
    | fixed x e =>
      refine (applyTransform_transports (.map i base f type) f x).andThen fun y => ?_
      cases y with
      | some y => exact .pure (Classification.fixed y _)
      | none => exact .pure (Classification.missing [])
  | flatMap i base choice type =>
    have scope {α β : Type} {f : α → β} {x x'} (hx : Transports ρ f x x') :=
      Transports.scope (.flatMap i base choice type) hx
    refine (scope (classification_transports base)).bind fun c => ?_
    cases c with
    | missing path => exact .pure (Classification.missing path)
    | changing q => exact rebuilt (.flatMap · q choice type) fun _ => rfl
    | fixed x e =>
      exact (chooseNext_transports (.flatMap i base choice type) choice type _).bind fun q =>
        scope (classification_transports q)
  | orElse i left right =>
    have scope {α β : Type} {f : α → β} {x x'} (hx : Transports ρ f x x') :=
      Transports.scope (.orElse i left right) hx
    refine (scope (classification_transports left)).bind fun l => ?_
    rw [l.isFixed_rename, l.isMissing_rename]
    split
    · exact .pure l
    · refine (scope (classification_transports right)).bind fun r => ?_
      rw [r.isMissing_rename]
      split
      · exact .pure r
      · split
        · exact .pure l
        · rw [left.type_rename, right.type_rename]
          refine Transports.bind (.lift (toProvider_carries left.type l)) fun p => ?_
          refine Transports.bind (.lift (toProvider_carries right.type r)) fun q => ?_
          exact rebuilt (.orElse · p q) fun _ => rfl
  | withEffect i inner e =>
    exact (Transports.scope (.withEffect i inner e) (classification_transports inner)).bind
      fun c => .lift (addEffect_carries c e)
  | named i inner name =>
    exact (Transports.scope (.named i inner name) (classification_transports inner)).bind
      fun c => .lift (addName_carries c name)
  | property r =>
    refine Transports.bind (.lift (.property r.id)) fun s => ?_
    rw [Property.effective_rename]
    exact asked_transports r s.effective classification_transports rfl
  | custom i form producer calls effect =>
    refine Transports.andThen (.lift (.apply (.note _))) fun _ => ?_
    refine Transports.andThen (.lift (nextCall_carries calls)) fun r => ?_
    refine (settle_transports (.pure _) r).andThen fun y => ?_
    cases y with
    | some x => exact .pure (Classification.fixed x effect)
    | none => exact .pure (Classification.missing form.path)

/-- The renamed provider is described by the same text. -/
theorem describe_carries : Carries ρ id (describe p) (describe (p.rename ρ)) := by
  cases p with
  | fixed | undefined | changing | named => exact .pure _
  | map i base | flatMap i base => exact (text_carries base).andThen fun _ => .pure _
  | orElse i left right =>
    exact (text_carries left).andThen fun _ => (text_carries right).andThen fun _ => .pure _
  | withEffect i inner => exact text_carries inner
  | property r =>
    rw [describe, Provider.rename, describe, show (r.rename ρ).name = r.name from rfl]
    cases r.name with
    | some name => exact .pure _
    | none =>
      refine (Carries.property r.id).bind fun s => ?_
      rw [Property.effective_rename]
      cases s.effective with
      | some q => exact (text_carries q).andThen fun _ => .pure _
      | none => exact .pure _
  | custom i form =>
    rw [describe, Provider.rename, describe]
    cases form.kind <;> exact .pure _

/-- The renamed provider is shown by the same text. -/
theorem render_carries (label : String) :
    Carries ρ id (render p label) (render (p.rename ρ) label) := by
  rw [render, render, p.id_rename]
  exact .within ⟨p.id, label⟩ (fun _ => .pure _) (describe_carries p)

end Questions

/-! ### Finalization and changes -/

theorem updateProperty_carries (i : Identity) {f f' : Property → Property}
    (hf : ∀ s, f' (s.rename ρ) = (f s).rename ρ) :
    Carries ρ id (updateProperty i f) (updateProperty (ρ i) f') := by
  refine (Carries.property i).bind fun s => ?_
  rw [hf]
  exact .apply (.setProperty i (f s))

theorem changeProperty_transports (r : PropertyRef) {f f' : Property → Property}
    (hf : ∀ s, f' (s.rename ρ) = (f s).rename ρ) :
    Transports ρ id (changeProperty r f) (changeProperty (r.rename ρ) f') := by
  refine Transports.bind (.lift (.property r.id)) fun s => ?_
  rw [show (r.rename ρ).label = r.label from rfl, s.change_rename ρ r.label hf]
  cases s.change r.label f with
  | ok s => exact .lift (.apply (.setProperty r.id s))
  | error e => exact .throw e

theorem setProvider_transports (r : PropertyRef) (q : Provider) :
    Transports ρ id (setProvider r q) (setProvider (r.rename ρ) (q.rename ρ)) :=
  changeProperty_transports r fun _ => rfl

theorem setPayload_transports (r : PropertyRef) (x : Payload) :
    Transports ρ id (setPayload r x) (setPayload (r.rename ρ) x) :=
  Transports.bind (.lift (freshFixed_carries x)) fun q => setProvider_transports r q

theorem computeFrozen_transports (r : PropertyRef) (held : Option Provider) :
    Transports ρ (Prod.map (Provider.rename ρ) id) (computeFrozen r held)
      (computeFrozen (r.rename ρ) (held.map (Provider.rename ρ))) := by
  cases held with
  | none =>
    exact Transports.bind (.lift (freshUndefined_carries r.type [])) fun p =>
      .pure (f := Prod.map _ id) (p, Producer.none)
  | some q =>
    refine (Transports.scope (.property r) (producer_transports q)).andThen fun t => ?_
    refine (Transports.scope (.property r) (value_transports q .strict)).andThen fun v => ?_
    have frozen := toProvider_carries (ρ := ρ) r.type (.ofValue v)
    rw [Classification.rename_ofValue] at frozen
    exact Transports.bind (.lift frozen) fun p => .pure (f := Prod.map _ id) (p, t)

/-- The renamed property is finalized as the property is. -/
theorem evalFinalize_transports (r : PropertyRef) :
    Transports ρ id (evalFinalize r) (evalFinalize (r.rename ρ)) := by
  refine Transports.bind (.lift (.property r.id)) fun s => ?_
  rw [s.finalized_rename, s.effective_rename]
  split
  · exact .same _
  · exact (computeFrozen_transports r s.effective).bind fun k =>
      .lift (updateProperty_carries r.id fun s => s.commit_rename ρ k.1 k.2)

/-! ### User code -/

section UserCode

variable {what name : String}

theorem lookup_transports {registers : Machine → Table String α}
    {registers' : Machine → Table String β} {f : α → β}
    (h : ∀ m, registers' (m.rename ρ) = (registers m).mapEntries f) :
    Transports ρ f (lookup what registers name) (lookup what registers' name) := by
  refine Transports.bind (.lift .machine) fun m => ?_
  have hcontent : (registers' (m.rename ρ)).content what name =
      ((registers m).content what name).map f := by
    rw [Table.content, Table.content, h, Table.find?_mapEntries]
    cases (registers m).find? name <;> rfl
  rw [hcontent]
  exact .ofExcept _

theorem lookupProperty_transports :
    Transports ρ (PropertyRef.rename ρ) (lookupProperty name) (lookupProperty name) :=
  lookup_transports fun _ => rfl

theorem lookupProvider_transports :
    Transports ρ (Provider.rename ρ) (lookupProvider name) (lookupProvider name) :=
  lookup_transports fun _ => rfl

theorem lookupOwner_transports :
    Transports ρ (Owner.rename ρ) (lookupOwner name) (lookupOwner name) :=
  lookup_transports fun _ => rfl

theorem lookupValue_transports : Transports ρ id (lookupValue name) (lookupValue name) :=
  lookup_transports fun _ => (List.map_id _).symm

theorem lookupClassification_transports :
    Transports ρ (Typed.map (Classification.rename ρ)) (lookupClassification name)
      (lookupClassification name) :=
  lookup_transports fun _ => rfl

theorem perform_carries (deeds : List (Action × Payload)) :
    Carries ρ id (perform deeds) (perform deeds) := by
  induction deeds with
  | nil => exact .pure _
  | cons deed deeds ih => exact (act_carries _ _ _).andThen fun _ => ih

theorem unpack_transports (v : Outcome) : Transports ρ id (unpack v) (unpack v) := by
  cases v with
  | missing path => exact .throw _
  | present x e => exact Transports.andThen (.lift (perform_carries _)) fun _ => .same _

theorem unpack?_transports (v : Outcome) : Transports ρ id (unpack? v) (unpack? v) := by
  cases v with
  | missing path => exact .same _
  | present x e => exact (unpack_transports _).map fun _ => rfl

theorem get_transports (p : Provider) : Transports ρ id (Ask.get p) (Ask.get (p.rename ρ)) :=
  (value_transports p .strict).andThen fun v => unpack_transports v

theorem get?_transports (p : Provider) : Transports ρ id (Ask.get? p) (Ask.get? (p.rename ρ)) :=
  (value_transports p .strict).andThen fun v => unpack?_transports v

theorem isPresent_transports (p : Provider) :
    Transports ρ id (Ask.isPresent p) (Ask.isPresent (p.rename ρ)) := presence_transports p .lenient

theorem freshCalls_carries (code : Nat → Action) (held : Option Payload) :
    Carries ρ (Calls.rename ρ) (freshCalls code held) (freshCalls code held) :=
  Carries.identity.bind fun i => .pure (Calls.mk i code held)

theorem withPart_transports (r : Recipe) (held : Option Payload)
    {next next' : Provider → UserCode Provider}
    (hn : ∀ p, Transports ρ (Provider.rename ρ) (next p) (next' (p.rename ρ))) :
    Transports ρ (Option.map (Provider.rename ρ)) (withPart r held next)
      (withPart r held next') := by
  refine (build_transports r held).bind fun p => ?_
  cases p with
  | some p => exact (hn p).map fun _ => rfl
  | none => exact .pure none

/-- A recipe describes the renamed provider on the renamed machine. -/
theorem evalRecipe_transports (r : Recipe) (held : Option Payload) :
    Transports ρ (Option.map (Provider.rename ρ)) (evalRecipe r held) (evalRecipe r held) := by
  have part (r : Recipe) (f f' : Identity → Provider → Provider)
      (hf : ∀ i p, (f i p).rename ρ = f' (ρ i) (p.rename ρ)) :
      Transports ρ (Option.map (Provider.rename ρ))
        (withPart r held fun p => do return f (← Eval.identity) p)
        (withPart r held fun p => do return f' (← Eval.identity) p) :=
    withPart_transports r held fun p => Transports.bind (.lift .identity) fun i => hf i p ▸ .pure _
  have leaf (code : Nat → Action) (f : Identity → Calls → Provider)
      (hf : ∀ i calls, (f i calls).rename ρ = f (ρ i) (calls.rename ρ)) :
      Transports ρ (Option.map (Provider.rename ρ))
        (do return some (f (← Eval.identity) (← freshCalls code held)) : UserCode _)
        (do return some (f (← Eval.identity) (← freshCalls code held))) :=
    Transports.bind (.lift .identity) fun i =>
      Transports.bind (.lift (freshCalls_carries code held)) fun calls =>
        hf i calls ▸ .pure (some (f i calls))
  have fixed (x : Payload) : Transports ρ (Option.map (Provider.rename ρ))
      (do return some (← freshFixed x) : UserCode _) (do return some (← freshFixed x)) :=
    Transports.bind (.lift (freshFixed_carries x)) fun p => .pure (some p)
  cases r with
  | register name => exact lookupProvider_transports.map fun _ => rfl
  | fixed x => exact fixed x
  | undefined type =>
    exact Transports.bind (.lift (freshUndefined_carries type [])) fun p => .pure (some p)
  | property name =>
    exact lookupProperty_transports.bind fun r => .pure (some (Provider.property r))
  | changing type code => exact leaf code (.changing · type none ·) fun _ _ => rfl
  | produced type node code =>
    exact (Transports.given _).andThen fun name =>
      leaf code (.changing · type (some name) ·) fun _ _ => rfl
  | custom form code effect =>
    exact Transports.bind (.lift .machine) fun m =>
      leaf code (.custom · form (form.producer.tree m.locals.producers) · effect) fun _ _ => rfl
  | map base f type => exact part base (.map · · ⟨f, held⟩ type) _ fun _ _ => rfl
  | flatMap base choice type => exact part base (.flatMap · · choice type) _ fun _ _ => rfl
  | withEffect inner e => exact part inner (.withEffect · · e) _ fun _ _ => rfl
  | named inner name => exact part inner (.named · · name) _ fun _ _ => rfl
  | orElse left right =>
    refine (build_transports left held).bind fun l => ?_
    cases l with
    | none => exact .pure none
    | some l => exact part right (.orElse · l) (.orElse · (l.rename ρ)) fun _ _ => rfl
  | result a =>
    refine (Transports.given _).andThen fun x => (action_transports a held x).andThen fun y => ?_
    cases y with
    | none => exact .pure none
    | some y => exact fixed y
  | after a next =>
    refine (Transports.given _).andThen fun x => (action_transports a held x).andThen fun y => ?_
    cases y with
    | none => exact .pure none
    | some y => exact build_transports next held
  | dispatch f => exact (Transports.given _).andThen fun x => build_transports (f x) held

theorem inquire_transports (q : Inquiry) (p : Provider) :
    Transports ρ id (inquire q p) (inquire q (p.rename ρ)) := by
  cases q with
  | get => exact (get_transports p).map fun _ => rfl
  | getOrNone => exact get?_transports p
  | isPresent => exact (isPresent_transports p).andThen fun _ => .same _

/-- An action does the same on the renamed machine. -/
theorem evalAction_transports (a : Action) (held : Option Payload) (x : Payload) :
    Transports ρ id (evalAction a held x) (evalAction a held x) := by
  cases a with
  | compute f =>
    rw [evalAction]
    split
    · exact .same _
    · exact .throw _
  | held => exact .same _
  | andThen first second =>
    refine (action_transports first held x).andThen fun y => ?_
    cases y with
    | some y => exact action_transports second held y
    | none => exact .same _
  | both left right =>
    refine (action_transports left held x).andThen fun y => ?_
    refine (action_transports right held x).andThen fun z => ?_
    split <;> exact .same _
  | dispatch f => exact action_transports (f x) held x
  | record label => exact Transports.andThen (.lift (.apply (.note _))) fun _ => .same _
  | perform s =>
    refine Transports.bind (.lift (.withOwnLocals (step_carries s) fun r => .pure r)) fun r => ?_
    exact Transports.andThen (.lift (.apply (.note (.reply r)))) fun _ => .same _
  | elsewhere a =>
    exact Transports.id_iff.mpr (.onThread (act_carries a held x) fun r => .pure r)
  | inquire q r =>
    refine (build_transports r (some x)).bind fun p => ?_
    cases p with
    | none => exact .same _
    | some p => exact .asUserCode (inquire_transports q p)
  | assign name a =>
    refine (action_transports a held x).andThen fun y => ?_
    cases y with
    | none => exact .same _
    | some y =>
      refine lookupProperty_transports.bind fun r => ?_
      exact (Transports.asUserCode (setPayload_transports r y)).andThen fun _ => .same _
  | finalize name =>
    refine lookupProperty_transports.bind fun r => ?_
    exact (Transports.asUserCode (finalize_transports r)).andThen fun _ => .same _
  | depth =>
    refine Transports.bind (.lift .machine) fun m => ?_
    rw [show (m.rename ρ).stack.depth = m.stack.depth from m.stack.depth_rename ρ]
    exact .same _

end UserCode

end ProviderGraph

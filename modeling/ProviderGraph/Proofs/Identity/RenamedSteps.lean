import ProviderGraph.Proofs.Identity.RenamedRules

/-!
# Steps under a renaming

A session works on registers, which a renaming leaves where they are. So a step carries over to
itself, with its reply renamed. This completes the rules (`rule_carries`).
-/

namespace ProviderGraph

variable {ρ : Renaming}

open Eval (Carries)

/-! ### Providers -/

theorem tellClassification_carries (c : Classification) :
    Carries ρ (Reply.rename ρ) (tellClassification c) (tellClassification (c.rename ρ)) := by
  cases c with
  | fixed | missing => exact .done rfl
  | changing p => exact (Ask.text_carries p).andThen fun _ => .done rfl

theorem GuardedRequest.answer_transports (o : Owner) (p : Provider) (request : GuardedRequest) :
    Transports ρ (Reply.rename ρ) (request.answer o p)
      (request.answer (o.rename ρ) (p.rename ρ)) := by
  cases request with
  | value c => exact (Transports.within o (Ask.value_transports p c)).andThen fun _ => .done rfl
  | presence c =>
    exact (Transports.within o (Ask.presence_transports p c)).andThen fun _ => .done rfl
  | producer => exact (Transports.within o (Ask.producer_transports p)).andThen fun _ => .done rfl
  | classification =>
    exact (Transports.within o (Ask.classification_transports p)).bind fun c =>
      .lift (tellClassification_carries c)
  | type =>
    rw [answer, answer, p.knownType_rename]
    exact .done rfl
  | text | inner => exact Transports.andThen (.lift (Ask.text_carries p)) fun _ => .done rfl

theorem keepOutcome_carries (p : Provider) (into : Option String) (v : Outcome) :
    Carries ρ (Reply.rename ρ) (keepOutcome p into v) (keepOutcome (p.rename ρ) into v) := by
  rw [keepOutcome, keepOutcome, p.type_rename]
  exact (Carries.apply (.keepValue into _)).andThen fun _ => .done rfl

theorem ProviderRequest.answer_transports (p : Provider) (request : ProviderRequest) :
    Transports ρ (Reply.rename ρ) (request.answer p) (request.answer (p.rename ρ)) := by
  cases request with
  | keep into => exact Transports.andThen (.lift (.apply (.keepProvider into p))) fun _ => .done rfl
  | get => exact (Transports.asUserCode (get_transports p)).andThen fun _ => .done rfl
  | getOrNone => exact (Transports.asUserCode (get?_transports p)).andThen fun _ => .done rfl
  | isPresent => exact (Transports.asUserCode (isPresent_transports p)).andThen fun _ => .done rfl
  | presence c =>
    exact (Transports.asUserCode (Ask.presence_transports p c)).andThen fun _ => .done rfl
  | value c into =>
    exact (Transports.asUserCode (Ask.value_transports p c)).andThen fun v =>
      .lift (keepOutcome_carries p into v)
  | ownValue c into =>
    exact (Transports.asUserCode (Ask.ownValue_transports p c)).andThen fun v =>
      .lift (keepOutcome_carries p into v)
  | producer into =>
    refine (Transports.asUserCode (Ask.producer_transports p)).andThen fun t => ?_
    exact Transports.andThen (.lift (.apply (.keepProducer into t))) fun _ => .done rfl
  | classification into =>
    refine (Transports.asUserCode (Ask.classification_transports p)).bind fun c => ?_
    rw [p.type_rename]
    exact Transports.andThen (.lift (.apply (.keepClassification into ⟨p.type, c⟩))) fun _ =>
      .lift (tellClassification_carries c)
  | type =>
    rw [answer, answer, p.knownType_rename]
    exact .done rfl
  | text | debugText => exact Transports.andThen (.lift (Ask.text_carries p)) fun _ => .done rfl
  | info =>
    rw [answer, answer, p.kind_rename, p.declaredName_rename]
    exact .done rfl
  | guarded owner request =>
    exact lookupOwner_transports.bind fun o => .asUserCode (request.answer_transports o p)

/-! ### Scopes, producers and values -/

theorem ScopeRequest.answer_transports (request : ScopeRequest) :
    Transports ρ (Reply.rename ρ) request.answer request.answer := by
  cases request with
  | declare owner label sameAs =>
    have identity : Transports ρ ρ (ownerIdentity sameAs) (ownerIdentity sameAs) := by
      cases sameAs with
      | some other => exact lookupOwner_transports.bind fun o => .pure o.id
      | none => exact .lift .identity
    exact identity.bind fun i =>
      Transports.andThen (.lift (.apply (.keepOwner owner ⟨i, label⟩))) fun _ => .done rfl
  | enter owner into =>
    refine lookupOwner_transports.bind fun o => ?_
    refine Transports.andThen (.lift (.openScope into o fun r => .pure r)) fun r => ?_
    cases r with
    | ok => exact .done rfl
    | error f => exact .throw _
  | leave register =>
    exact Transports.andThen (.lift (.apply (.closeScope register))) fun _ => .done rfl
  | isOpen owner =>
    refine lookupOwner_transports.bind fun o => Transports.bind (.lift .machine) fun m => ?_
    rw [show (m.rename ρ).stack.isOpen (o.rename ρ).id = m.stack.isOpen o.id from
      m.stack.isOpen_rename ρ o.id]
    exact .done rfl
  | depth =>
    refine Transports.bind (.lift .machine) fun m => ?_
    rw [show (m.rename ρ).stack.depth = m.stack.depth from m.stack.depth_rename ρ]
    exact .done rfl
  | setLimit limit =>
    exact Transports.andThen (.lift (.apply (.setLimit limit))) fun _ => .done rfl
  | limit => exact Transports.bind (.lift .machine) fun _ => .done rfl

theorem ProducerRequest.answer_transports (request : ProducerRequest) :
    Transports ρ (Reply.rename ρ) request.answer request.answer := by
  cases request with
  | keep term into =>
    exact Transports.bind (.lift .machine) fun m =>
      Transports.andThen (.lift (.apply (.keepProducer into _))) fun _ => .done rfl
  | same a b => exact Transports.bind (.lift .machine) fun _ => .done rfl

theorem tellValue_transports (name : String) (type : PayloadType) (v : Outcome) :
    Transports ρ (Reply.rename ρ) (tellValue name type v) (tellValue name type v) :=
  Transports.andThen (.lift (.apply (.keepValue (some name) ⟨type, v⟩))) fun _ => .done rfl

theorem takeValue_transports (name : String) :
    Transports ρ id (takeValue name) (takeValue name) :=
  lookupValue_transports.andThen fun v =>
    Transports.andThen (.lift (.apply (.dropValue name))) fun _ => .same v

theorem updateValue_transports (name : String) (f : Outcome → Outcome) :
    Transports ρ (Reply.rename ρ) (updateValue name f) (updateValue name f) :=
  lookupValue_transports.andThen fun _ => tellValue_transports name _ _

theorem performEffect_carries (e : Option Effect) (x : Payload) :
    Carries ρ (Reply.rename ρ) (performEffect e x) (performEffect e x) :=
  (perform_carries _).andThen fun _ => .done rfl

theorem ValueRequest.answer_transports (name : String) (request : ValueRequest) :
    Transports ρ (Reply.rename ρ) (request.answer name) (request.answer name) := by
  cases request with
  | present | missing | ofOption => exact tellValue_transports name _ _
  | get =>
    refine (takeValue_transports name).andThen fun v => ?_
    exact (Transports.asUserCode (unpack_transports _)).andThen fun _ => .done rfl
  | getOrNone =>
    refine (takeValue_transports name).andThen fun v => ?_
    exact (Transports.asUserCode (unpack?_transports _)).andThen fun _ => .done rfl
  | push => exact updateValue_transports name _
  | addPath => exact lookupValue_transports.andThen fun _ => updateValue_transports name _
  | asMissing type into =>
    refine lookupValue_transports.andThen fun v => ?_
    cases v.content.asMissing with
    | some w => exact Transports.andThen (.lift (.apply (.keepValue into _))) fun _ => .done rfl
    | none => exact .done rfl
  | runBound | runEffect =>
    exact lookupValue_transports.andThen fun _ => .lift (performEffect_carries _ _)
  | inspect => exact lookupValue_transports.andThen fun _ => .done rfl

theorem transformValue_transports (name : String) (f : Action) (type : PayloadType)
    (into : String) :
    Transports ρ (Reply.rename ρ) (transformValue name f type into)
      (transformValue name f type into) := by
  refine (takeValue_transports name).andThen fun v => ?_
  obtain ⟨_, v⟩ := v
  cases v with
  | missing path => exact tellValue_transports into type _
  | present x e =>
    refine Transports.andThen (x := transformed f x) ?_ fun y => tellValue_transports into type _
    refine (Ask.action_transports f none x).andThen fun y => ?_
    cases y with
    | some y => exact .same y
    | none => exact .throw _

/-! ### Classifications -/

theorem keepClassification_carries (name : String) (type : PayloadType) (c : Classification) :
    Carries ρ (Reply.rename ρ) (keepClassification name type c)
      (keepClassification name type (c.rename ρ)) :=
  (Carries.apply (.keepClassification (some name) ⟨type, c⟩)).andThen fun _ =>
    tellClassification_carries c

theorem tellProvider_carries (name : String) (p : Provider) :
    Carries ρ id (tellProvider name p) (tellProvider name (p.rename ρ)) :=
  (Carries.apply (.keepProvider name p)).andThen fun _ => Ask.text_carries p

theorem ClassificationRequest.answer_transports (name : String)
    (request : ClassificationRequest) :
    Transports ρ (Reply.rename ρ) (request.answer name) (request.answer name) := by
  cases request with
  | fixed x => exact .lift (keepClassification_carries name x.type (.fixed x none))
  | missing type path => exact .lift (keepClassification_carries name type (.missing path))
  | ofValue register =>
    refine (takeValue_transports register).andThen fun v => .lift ?_
    have h := keepClassification_carries (ρ := ρ) name v.type (.ofValue v.content)
    rwa [Classification.rename_ofValue] at h
  | inspect =>
    exact lookupClassification_transports.bind fun c => .lift (tellClassification_carries c.content)
  | toValue into =>
    refine lookupClassification_transports.bind fun c => ?_
    rw [show (c.map (Classification.rename ρ)).content.toValue = c.content.toValue from
      c.content.toValue_rename ρ]
    cases c.content.toValue with
    | some v => exact Transports.andThen (.lift (.apply (.keepValue into _))) fun _ => .done rfl
    | none => exact .done rfl
  | toProvider into =>
    refine lookupClassification_transports.bind fun c => ?_
    refine Transports.bind (.lift (toProvider_carries c.type c.content)) fun p => ?_
    exact Transports.andThen (.lift (tellProvider_carries into p)) fun _ => .done rfl
  | changing into =>
    refine lookupClassification_transports.bind fun c => ?_
    rw [show (c.map (Classification.rename ρ)).content.changing? = _ from
      c.content.changing?_rename ρ]
    cases c.content.changing? with
    | some p => exact Transports.andThen (.lift (tellProvider_carries into p)) fun _ => .done rfl
    | none => exact .done rfl

theorem addClassificationEffect_transports (name : String) (e : Effect) :
    Transports ρ (Reply.rename ρ) (addClassificationEffect name e)
      (addClassificationEffect name e) := by
  refine lookupClassification_transports.bind fun c => ?_
  refine Transports.bind (.lift (addEffect_carries c.content e)) fun d => ?_
  exact .lift (keepClassification_carries name c.type d)

/-! ### Properties -/

theorem PropertyRequest.answer_transports (r : PropertyRef) (request : PropertyRequest) :
    Transports ρ (Reply.rename ρ) (request.answer r) (request.answer (r.rename ρ)) := by
  cases request with
  | copy into => exact Transports.andThen (.lift (.apply (.keepProperty into r))) fun _ => .done rfl
  | set x => exact (setPayload_transports r x).andThen fun _ => .done rfl
  | unset =>
    refine (changeProperty_transports r ?_).andThen fun _ => .done rfl
    exact fun _ => rfl
  | finalize => exact (Ask.finalize_transports r).andThen fun _ => .done rfl
  | finalizeOnRead | disallowChanges | attach =>
    exact Transports.andThen (.lift (updateProperty_carries r.id fun _ => rfl)) fun _ => .done rfl
  | isFinalized => exact Transports.bind (.lift (.property r.id)) fun _ => .done rfl
  | name => exact .done rfl
  | get => exact (get_transports (.property r)).andThen fun _ => .done rfl
  | getOrNone => exact (get?_transports (.property r)).andThen fun _ => .done rfl
  | isPresent => exact (isPresent_transports (.property r)).andThen fun _ => .done rfl
  | text | debugText =>
    exact Transports.andThen (.lift (Ask.propertyText_carries r)) fun _ => .done rfl

def Declared.rename (ρ : Renaming) : Declared PropertyRef Provider → Declared PropertyRef Provider
  | .property r => .property (r.rename ρ)
  | .provider p => .provider (p.rename ρ)
  | .absent => .absent

theorem DeclaredRequest.answer_transports (d : Declared PropertyRef Provider)
    (request : DeclaredRequest) :
    Transports ρ (Reply.rename ρ) (request.answer d) (request.answer (d.rename ρ)) := by
  cases request with
  | call =>
    cases d with
    | property r => exact (get?_transports (.property r)).andThen fun _ => .done rfl
    | provider p => exact (get?_transports p).andThen fun _ => .done rfl
    | absent => exact .done rfl
  | producer =>
    cases d with
    | property r => exact (Ask.producer_transports (.property r)).andThen fun _ => .done rfl
    | provider p => exact (Ask.producer_transports p).andThen fun _ => .done rfl
    | absent => exact .done rfl
  | finalize =>
    cases d with
    | property r => exact (Ask.finalize_transports r).andThen fun _ => .done rfl
    | provider | absent => exact .done rfl

/-! ### Steps -/

theorem runAll_carries (body : List Step) :
    Carries ρ (List.map (Reply.rename ρ)) (runAll body) (runAll body) := by
  induction body with
  | nil => exact .done rfl
  | cons s ss ih => exact (Ask.step_carries s).bind fun _ => ih.bind fun _ => .done rfl

theorem runRounds_carries (body : List Step) (n : Nat) :
    Carries ρ (List.map (Reply.rename ρ)) (runRounds body n) (runRounds body n) := by
  fun_induction runRounds body n with
  | case1 => exact .done rfl
  | case2 => exact runAll_carries body
  | case3 n ih => exact (runAll_carries body).bind fun _ => ih

theorem built_transports (r : Recipe) : Transports ρ (Provider.rename ρ) (built r) (built r) := by
  refine (Ask.build_transports r none).bind fun p => ?_
  cases p with
  | some p => exact .pure p
  | none => exact .throw _

theorem resolve_transports (d : Declared String Recipe) :
    Transports ρ (Declared.rename ρ) (resolve d) (resolve d) := by
  cases d with
  | property name => exact lookupProperty_transports.bind fun r => .pure (Declared.property r)
  | provider r => exact (built_transports r).bind fun p => .pure (Declared.provider p)
  | absent => exact .done rfl

theorem carryOut_transports (s : Step) :
    Transports ρ (Reply.rename ρ) (carryOut s) (carryOut s) := by
  cases s with
  | iterate n body =>
    exact Transports.bind (.lift (runRounds_carries body n)) fun rs =>
      .done (congrArg Except.ok (Reply.rename_replies ρ rs))
  | onThread body =>
    exact Transports.bind (.lift (.onThread (runAll_carries body) fun rs => .pure rs)) fun rs =>
      .done (congrArg Except.ok (Reply.rename_replies ρ rs))
  | tryRun owner body =>
    refine lookupOwner_transports.bind fun o => .lift (.within o (fun _ => .done rfl) ?_)
    exact (runAll_carries body).bind fun rs => .done (Reply.rename_replies ρ rs)
  | runEffect e x => exact .lift (performEffect_carries e x)
  | scope request => exact request.answer_transports
  | producer request => exact request.answer_transports
  | provider e request => exact (built_transports e).bind fun p => request.answer_transports p
  | same a b =>
    refine (built_transports a).bind fun p => (built_transports b).bind fun q => ?_
    rw [p.id_rename, q.id_rename, ρ.beq_apply]
    exact .done rfl
  | newProperty p type name =>
    refine .lift (Carries.identity.bind fun i => ?_)
    exact (Carries.apply (.keepProperty p ⟨i, type, name⟩)).andThen fun _ => .done rfl
  | property p request =>
    exact lookupProperty_transports.bind fun r => .asUserCode (request.answer_transports r)
  | setProvider p e =>
    refine (built_transports e).bind fun q => lookupProperty_transports.bind fun r => ?_
    exact (Transports.asUserCode (setProvider_transports r q)).andThen fun _ => .done rfl
  | convention p e =>
    refine (built_transports e).bind fun q => lookupProperty_transports.bind fun r => ?_
    refine (Transports.asUserCode (changeProperty_transports r ?_)).andThen fun _ => .done rfl
    exact fun _ => rfl
  | declared d request =>
    exact (resolve_transports d).bind fun d => .asUserCode (request.answer_transports d)
  | value v request => exact request.answer_transports v
  | valueWithEffect v e => exact updateValue_transports v _
  | valueTransform v f type into => exact transformValue_transports v f type into
  | classification v request => exact request.answer_transports v
  | classificationChanging v e =>
    refine (built_transports e).bind fun p => ?_
    rw [p.type_rename]
    exact .lift (keepClassification_carries v p.type (.changing p))
  | classificationWithEffect v e => exact addClassificationEffect_transports v e

/-- Steps have renamed replies. -/
theorem evalStep_carries (s : Step) : Carries ρ (Reply.rename ρ) (evalStep s) (evalStep s) := by
  refine Carries.bind (carryOut_transports s) fun r => .done ?_
  rcases r with (reason | f) | r <;> rfl

/-- The rule of a question carries over to that of the renamed question. -/
theorem rule_carries (q : Query) : Carries ρ (q.carry ρ) (rule q) (rule (q.rename ρ)) := by
  cases q with
  | ownValue p c => exact Transports.id_iff.mp (evalValue_transports p c)
  | presence p c => exact Transports.id_iff.mp (evalPresence_transports p c)
  | producer p => exact Transports.id_iff.mp (evalProducer_transports p)
  | classification p => exact evalClassification_transports p
  | text p label => exact render_carries p label
  | finalize r => exact Transports.id_iff.mp (evalFinalize_transports r)
  | act a held x => exact Transports.id_iff.mp (evalAction_transports a held x)
  | build r held => exact evalRecipe_transports r held
  | step s => exact evalStep_carries s

end ProviderGraph

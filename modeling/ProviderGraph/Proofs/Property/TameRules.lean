import ProviderGraph.Proofs.Property.Turns

/-!
# Rules are tame

Whatever user code does while a question is answered, the rule of the question changes properties
only as user code may. The one exception is the rule that finalizes a property: it keeps a value,
and only in that property.
-/

namespace ProviderGraph

open Eval (Tame)
open Eval.Tame (pure bindExcept lift ask machine identity parts)

/-- To fill a register is tame. -/
theorem Change.OnRegister.tame {c : Change} (h : c.OnRegister) : (Eval.apply c).Tame :=
  .apply fun _ => by cases c <;> trivial

theorem ScopeRequest.answer_tame (request : ScopeRequest) : request.answer.run.Tame := by
  cases request with
  | declare owner label sameAs =>
    refine bindExcept ?_ fun i => bindExcept (lift (.apply fun _ => trivial)) fun _ => pure _
    cases sameAs with
    | some other => exact bindExcept parts.lookup fun _ => pure _
    | none => exact lift identity
  | enter owner into =>
    refine bindExcept parts.lookup fun o => bindExcept (lift (.keepOpen into o)) fun r => ?_
    cases r with
    | ok => exact pure _
    | error f => exact parts.throw _
  | leave | setLimit => exact bindExcept (lift (.apply fun _ => trivial)) fun _ => pure _
  | isOpen owner => exact bindExcept parts.lookup fun o => bindExcept (lift machine) fun _ => pure _
  | depth | limit => exact bindExcept (lift machine) fun _ => pure _

theorem ProducerRequest.answer_tame (request : ProducerRequest) : request.answer.run.Tame := by
  cases request with
  | keep term into =>
    refine bindExcept (lift machine) fun m => ?_
    exact bindExcept (lift (.apply fun _ => trivial)) fun _ => pure _
  | same a b => exact bindExcept (lift machine) fun _ => pure _

theorem tellValue_tame (name : String) (type : PayloadType) (v : Outcome) :
    (tellValue name type v).run.Tame :=
  bindExcept (lift (.apply fun _ => trivial)) fun _ => pure _

theorem takeValue_tame (name : String) : (takeValue name).run.Tame := by
  refine bindExcept parts.lookup fun v => ?_
  exact bindExcept (lift (.apply fun _ => trivial)) fun _ => pure _

theorem updateValue_tame (name : String) (f : Outcome → Outcome) :
    (updateValue name f).run.Tame := bindExcept parts.lookup fun _ => tellValue_tame name _ _

theorem performEffect_tame (e : Option Effect) (x : Payload) : (performEffect e x).Tame :=
  (parts.perform _).bind fun _ => pure _

theorem ValueRequest.answer_tame (name : String) (request : ValueRequest) :
    (request.answer name).run.Tame := by
  cases request with
  | present | missing | ofOption => exact tellValue_tame name _ _
  | get =>
    refine bindExcept (takeValue_tame name) fun v => ?_
    exact bindExcept (parts.asUserCode (parts.unpack _)) fun _ => pure _
  | getOrNone =>
    refine bindExcept (takeValue_tame name) fun v => ?_
    exact bindExcept (parts.asUserCode (parts.unpack? _)) fun _ => pure _
  | push => exact updateValue_tame name _
  | addPath => exact bindExcept parts.lookup fun _ => updateValue_tame name _
  | asMissing type into =>
    refine bindExcept parts.lookup fun v => ?_
    split
    · exact bindExcept (lift (.apply fun _ => trivial)) fun _ => pure _
    · exact pure _
  | runBound | runEffect => exact bindExcept parts.lookup fun _ => lift (performEffect_tame _ _)
  | inspect => exact bindExcept parts.lookup fun _ => pure _

theorem transformValue_tame (name : String) (f : Action) (type : PayloadType) (into : String) :
    (transformValue name f type into).run.Tame := by
  refine bindExcept (takeValue_tame name) fun v => ?_
  obtain ⟨_, v⟩ := v
  cases v with
  | missing path => exact tellValue_tame into type _
  | present x e =>
    refine bindExcept (bindExcept (ask _) fun y => ?_) fun y => tellValue_tame into type _
    cases y with
    | some y => exact pure _
    | none => exact parts.throw _

theorem keepClassification_tame (name : String) (type : PayloadType) (c : Classification) :
    (keepClassification name type c).Tame :=
  Tame.bind (.apply fun _ => trivial) fun _ => parts.tellClassification c

theorem tellProvider_tame (name : String) (p : Provider) : (tellProvider name p).Tame :=
  Tame.bind (.apply fun _ => trivial) fun _ => ask _

theorem ClassificationRequest.answer_tame (name : String) (request : ClassificationRequest) :
    (request.answer name).run.Tame := by
  cases request with
  | fixed | missing => exact lift (keepClassification_tame name _ _)
  | ofValue register =>
    exact bindExcept (takeValue_tame register) fun _ => lift (keepClassification_tame name _ _)
  | inspect => exact bindExcept parts.lookup fun c => lift (parts.tellClassification c.content)
  | toValue into =>
    refine bindExcept parts.lookup fun c => ?_
    split
    · exact bindExcept (lift (.apply fun _ => trivial)) fun _ => pure _
    · exact pure _
  | toProvider into =>
    refine bindExcept parts.lookup fun c => bindExcept (lift (parts.toProvider _ _)) fun p => ?_
    exact bindExcept (lift (tellProvider_tame into p)) fun _ => pure _
  | changing into =>
    refine bindExcept parts.lookup fun c => ?_
    split
    · exact bindExcept (lift (tellProvider_tame into _)) fun _ => pure _
    · exact pure _

theorem addClassificationEffect_tame (name : String) (e : Effect) :
    (addClassificationEffect name e).run.Tame := by
  refine bindExcept parts.lookup fun c => bindExcept (lift (parts.addEffect _ e)) fun d => ?_
  exact lift (keepClassification_tame name _ d)

theorem PropertyRequest.answer_tame (r : PropertyRef) (request : PropertyRequest) :
    (request.answer r).run.Tame := by
  cases request with
  | copy into => exact bindExcept (lift (.apply fun _ => trivial)) fun _ => pure _
  | set x => exact bindExcept (parts.setPayload r x) fun _ => pure _
  | unset => exact bindExcept (.changeProperty r fun _ => .put none) fun _ => pure _
  | finalize => exact bindExcept (ask _) fun _ => pure _
  | finalizeOnRead =>
    exact bindExcept (lift (.updateProperty r.id fun _ => .markFinalizeOnRead)) fun _ => pure _
  | disallowChanges =>
    exact bindExcept (lift (.updateProperty r.id fun _ => .disallowChanges)) fun _ => pure _
  | attach node =>
    exact bindExcept (lift (.updateProperty r.id fun _ => .attach node)) fun _ => pure _
  | isFinalized => exact bindExcept (lift (parts.property _)) fun _ => pure _
  | name => exact pure _
  | get => exact bindExcept (parts.get _) fun _ => pure _
  | getOrNone => exact bindExcept (parts.get? _) fun _ => pure _
  | isPresent => exact bindExcept (ask _) fun _ => pure _
  | text | debugText => exact bindExcept (lift (ask _)) fun _ => pure _

theorem DeclaredRequest.answer_tame (d : Declared PropertyRef Provider)
    (request : DeclaredRequest) : (request.answer d).run.Tame := by
  cases request with
  | call =>
    cases d with
    | absent => exact pure _
    | property r => exact bindExcept (parts.get? _) fun _ => pure _
    | provider p => exact bindExcept (parts.get? _) fun _ => pure _
  | producer =>
    cases d with
    | absent => exact pure _
    | property | provider => exact bindExcept (ask _) fun _ => pure _
  | finalize =>
    cases d with
    | property r => exact bindExcept (ask _) fun _ => pure _
    | provider | absent => exact pure _

theorem built_tame (r : Recipe) : (built r).run.Tame := by
  refine bindExcept (ask _) fun p => ?_
  cases p with
  | some p => exact pure _
  | none => exact parts.throw _

/-- Steps one after the other are tame. -/
theorem runAll_tame (body : List Step) : (runAll body).Tame := by
  induction body with
  | nil => exact pure _
  | cons s ss ih => exact (ask _).bind fun _ => ih.bind fun _ => pure _

theorem runRounds_tame (body : List Step) (n : Nat) : (runRounds body n).Tame := by
  fun_induction runRounds body n with
  | case1 => exact pure _
  | case2 => exact runAll_tame body
  | case3 n ih => exact (runAll_tame body).bind fun _ => ih

/-- To carry out a step is tame. -/
theorem carryOut_tame (s : Step) : (carryOut s).run.Tame := by
  cases s with
  | iterate n body => exact bindExcept (lift (runRounds_tame body n)) fun _ => pure _
  | onThread body => exact bindExcept (lift (.elsewhere (runAll_tame body))) fun _ => pure _
  | tryRun owner body =>
    refine bindExcept parts.lookup fun o => lift (.inScope (fun _ => pure _) ?_)
    exact (runAll_tame body).bind fun _ => pure _
  | runEffect e x => exact lift (performEffect_tame e x)
  | scope request => exact request.answer_tame
  | producer request => exact request.answer_tame
  | provider e request =>
    exact bindExcept (built_tame e) fun p =>
      parts.providerRequest (fun _ hc => hc.tame) p request
  | same a b => exact bindExcept (built_tame a) fun _ => bindExcept (built_tame b) fun _ => pure _
  | newProperty p type name =>
    refine lift (identity.bind fun i => ?_)
    exact Tame.bind (.apply fun _ => trivial) fun _ => pure _
  | property p request =>
    exact bindExcept parts.lookup fun r => parts.asUserCode (request.answer_tame r)
  | setProvider p e =>
    refine bindExcept (built_tame e) fun q => bindExcept parts.lookup fun r => ?_
    exact bindExcept (parts.asUserCode (.setProvider r q)) fun _ => pure _
  | convention p e =>
    refine bindExcept (built_tame e) fun q => bindExcept parts.lookup fun r => ?_
    refine bindExcept (parts.asUserCode ?_) fun _ => pure _
    exact .changeProperty r fun _ => .convention q
  | declared d request =>
    refine bindExcept ?_ fun d => parts.asUserCode (request.answer_tame d)
    cases d with
    | property name => exact bindExcept parts.lookup fun _ => pure _
    | provider r => exact bindExcept (built_tame r) fun _ => pure _
    | absent => exact pure _
  | value v request => exact request.answer_tame v
  | valueWithEffect v e => exact updateValue_tame v _
  | valueTransform v f type into => exact transformValue_tame v f type into
  | classification v request => exact request.answer_tame v
  | classificationChanging v e =>
    exact bindExcept (built_tame e) fun p => lift (keepClassification_tame v p.type _)
  | classificationWithEffect v e => exact addClassificationEffect_tame v e

/-- A question that finalizes nothing has a tame rule. -/
theorem rule_tame (q : Query) (hq : ∀ r, q ≠ .finalize r) : (rule q).Tame := by
  cases q with
  | step s => exact (carryOut_tame s).bind fun _ => pure _
  | _ => exact parts.rule trivial hq

end ProviderGraph

import ProviderGraph.Proofs.Identity.RollRules
import ProviderGraph.Session.Step

/-!
# Sessions keep the roll

A session works on registers, and what a step takes out of one register and keeps in another is on
the roll, as is what it builds.
-/

namespace ProviderGraph

variable {roll : Roll} {p : Provider}

/-! ### Providers -/

theorem tellClassification_enrolls {c : Classification} (hc : c.Enrolled roll) :
    (tellClassification c).Enrolls roll fun _ _ => True := by
  cases c with
  | fixed | missing => trivial
  | changing p => exact ⟨hc, fun _ _ _ _ => trivial⟩

theorem GuardedRequest.answer_enrolling {o : Owner} (ho : o.id < roll.length)
    (hp : p.Enrolled roll) (request : GuardedRequest) :
    Enrolling (request.answer o p) roll fun _ _ => True := by
  cases request with
  | value => exact .bind (.within ho (.value hp fun _ _ _ => .pure trivial))
  | presence => exact .bind (.within ho (.presence hp fun _ _ _ => .pure trivial))
  | producer => exact .bind (.within ho (.producer hp fun _ _ _ => .pure trivial))
  | classification =>
    exact .bind (.within ho (.classification hp fun _ _ _ hc =>
      .lift (tellClassification_enrolls hc)))
  | type => exact .pure trivial
  | text | inner => exact .bind (.text hp fun _ _ _ => .pure trivial)

theorem lookupOwner_enrolling {name : String} {post : Roll → Owner → Prop}
    (h : ∀ o, o.id < roll.length → post roll o) : Enrolling (lookupOwner name) roll post :=
  .bind (.machine fun _ hm => .ofExcept fun o ho => h o (hm.owners name o (find?_of_content ho)))

theorem ProviderRequest.answer_enrolling (hp : p.Enrolled roll) (request : ProviderRequest) :
    Enrolling (request.answer p) roll fun _ _ => True := by
  cases request with
  | keep into => exact .bind (.apply hp (.pure trivial))
  | get => exact .bind (.asUserCode (get_enrolling hp fun _ _ _ => .pure trivial))
  | getOrNone => exact .bind (.asUserCode (get?_enrolling hp fun _ _ _ => .pure trivial))
  | isPresent | presence =>
    exact .bind (.asUserCode (.presence hp fun _ _ _ => .pure trivial))
  | value => exact .bind (.asUserCode (.value hp fun _ _ _ => .lift ⟨trivial, trivial⟩))
  | ownValue => exact .bind (.asUserCode (.ownValue hp fun _ _ _ => .lift ⟨trivial, trivial⟩))
  | producer into =>
    exact .bind (.asUserCode (.producer hp fun _ _ _ => .bind (.apply trivial (.pure trivial))))
  | classification into =>
    refine .bind (.asUserCode (.classification hp fun _ c _ hc => .bind (.apply hc ?_)))
    exact .lift (tellClassification_enrolls hc)
  | type | info => exact .pure trivial
  | text | debugText => exact .bind (.text hp fun _ _ _ => .pure trivial)
  | guarded owner request =>
    refine .bind (lookupOwner_enrolling fun o ho => .asUserCode ?_)
    exact request.answer_enrolling ho hp

/-! ### Scopes, producers and values -/

theorem ScopeRequest.answer_enrolling (request : ScopeRequest) :
    Enrolling request.answer roll fun _ _ => True := by
  cases request with
  | declare owner label sameAs =>
    cases sameAs with
    | some other =>
      exact .bind (.bind (lookupOwner_enrolling fun o ho =>
        .pure (.bind (.apply ho (.pure trivial)))))
    | none =>
      exact .bind (.lift (Eval.enrolls_number fun _ hlt => .bind (.apply hlt (.pure trivial))))
  | enter owner into =>
    refine .bind (lookupOwner_enrolling fun o ho => .bind (.lift ⟨ho, fun r => ?_⟩))
    cases r with
    | ok u => exact .pure trivial
    | error f => exact .throw _
  | leave | setLimit => exact .bind (.apply trivial (.pure trivial))
  | isOpen owner =>
    exact .bind (lookupOwner_enrolling fun o _ => .bind (.machine fun _ _ => .pure trivial))
  | depth | limit => exact .bind (.machine fun _ _ => .pure trivial)

theorem ProducerRequest.answer_enrolling (request : ProducerRequest) :
    Enrolling request.answer roll fun _ _ => True := by
  cases request with
  | keep => exact .bind (.machine fun _ _ => .bind (.apply trivial (.pure trivial)))
  | same => exact .bind (.machine fun _ _ => .pure trivial)

theorem tellValue_enrolling {name : String} {type : PayloadType} {v : Outcome} :
    Enrolling (tellValue name type v) roll fun _ _ => True :=
  .bind (.apply trivial (.pure trivial))

theorem lookupValue_enrolling {name : String} {post : Roll → Typed Outcome → Prop}
    (h : ∀ v, post roll v) : Enrolling (lookupValue name) roll post :=
  .bind (.machine fun _ _ => .ofExcept fun v _ => h v)

theorem takeValue_enrolling {name : String} {post : Roll → Typed Outcome → Prop}
    (h : ∀ v, post roll v) : Enrolling (takeValue name) roll post :=
  .bind (lookupValue_enrolling fun v => .bind (.apply trivial (.pure (h v))))

theorem updateValue_enrolling {name : String} {f : Outcome → Outcome} :
    Enrolling (updateValue name f) roll fun _ _ => True :=
  .bind (lookupValue_enrolling fun _ => tellValue_enrolling)

theorem performEffect_enrolls {e : Option Effect} {x : Payload} :
    (performEffect e x).Enrolls roll fun _ _ => True :=
  (Eval.enrolls_bind _ _).mpr (perform_enrolls _ fun _ _ => trivial)

theorem ValueRequest.answer_enrolling (name : String) (request : ValueRequest) :
    Enrolling (request.answer name) roll fun _ _ => True := by
  cases request with
  | present | missing | ofOption => exact tellValue_enrolling
  | get =>
    exact .bind (takeValue_enrolling fun v =>
      .bind (.asUserCode (unpack_enrolling fun _ _ _ => .pure trivial)))
  | getOrNone =>
    exact .bind (takeValue_enrolling fun v =>
      .bind (.asUserCode (unpack?_enrolling fun _ _ _ => .pure trivial)))
  | push => exact updateValue_enrolling
  | addPath => exact .bind (lookupValue_enrolling fun _ => updateValue_enrolling)
  | asMissing =>
    refine .bind (lookupValue_enrolling fun v => ?_)
    split
    · exact .bind (.apply trivial (.pure trivial))
    · exact .pure trivial
  | runBound | runEffect => exact .bind (lookupValue_enrolling fun _ => .lift performEffect_enrolls)
  | inspect => exact .bind (lookupValue_enrolling fun _ => .pure trivial)

theorem transformValue_enrolling {name : String} {f : Action} {type : PayloadType}
    {into : String} : Enrolling (transformValue name f type into) roll fun _ _ => True := by
  refine .bind (takeValue_enrolling fun v => ?_)
  obtain ⟨_, v⟩ := v
  cases v with
  | missing path => exact tellValue_enrolling
  | present x e =>
    refine .bind (.bind (.action fun _ y _ => ?_))
    cases y with
    | some y => exact .pure tellValue_enrolling
    | none => exact .throw _

/-! ### Classifications and properties -/

theorem keepClassification_enrolls {name : String} {type : PayloadType} {c : Classification}
    (hc : c.Enrolled roll) : (keepClassification name type c).Enrolls roll fun _ _ => True :=
  ⟨hc, tellClassification_enrolls hc⟩

theorem tellProvider_enrolls {name : String} {post : Roll → String → Prop} (hp : p.Enrolled roll)
    (h : ∀ roll' s, post roll' s) : (tellProvider name p).Enrolls roll post :=
  ⟨hp, hp, fun roll' s _ _ => h roll' s⟩

theorem lookupClassification_enrolling {name : String}
    {post : Roll → Typed Classification → Prop}
    (h : ∀ c : Typed Classification, c.content.Enrolled roll → post roll c) :
    Enrolling (lookupClassification name) roll post :=
  .bind (.machine fun _ hm => .ofExcept fun c hc =>
    h c (hm.classifications name c (find?_of_content hc)))

theorem Classification.Enrolled.changing {c : Classification} (hc : c.Enrolled roll)
    (hp : c.changing? = some p) : p.Enrolled roll := by
  cases c with
  | changing q => exact Option.some.inj hp ▸ hc
  | fixed | missing => cases hp

theorem ClassificationRequest.answer_enrolling (name : String)
    (request : ClassificationRequest) :
    Enrolling (request.answer name) roll fun _ _ => True := by
  cases request with
  | fixed | missing => exact .lift (keepClassification_enrolls trivial)
  | ofValue register =>
    refine .bind (takeValue_enrolling fun v => .lift (keepClassification_enrolls ?_))
    cases v.content <;> trivial
  | inspect =>
    exact .bind (lookupClassification_enrolling fun c hc => .lift (tellClassification_enrolls hc))
  | toValue into =>
    refine .bind (lookupClassification_enrolling fun c _ => ?_)
    split
    · exact .bind (.apply trivial (.pure trivial))
    · exact .pure trivial
  | toProvider into =>
    refine .bind (lookupClassification_enrolling fun c hc => .bind (.lift ?_))
    exact toProvider_enrolls hc fun _ q _ hq =>
      .bind (.lift (tellProvider_enrolls hq fun _ _ => .pure trivial))
  | changing into =>
    refine .bind (lookupClassification_enrolling fun c hc => ?_)
    split
    · next q hq =>
      exact .bind (.lift (tellProvider_enrolls (hc.changing hq) fun _ _ => .pure trivial))
    · exact .pure trivial

theorem addClassificationEffect_enrolling {name : String} {e : Effect} :
    Enrolling (addClassificationEffect name e) roll fun _ _ => True :=
  .bind (lookupClassification_enrolling fun _ hc => .bind (.lift ((addEffect_enrolls hc e).imp
    fun _ _ hd => .lift (keepClassification_enrolls hd))))

theorem PropertyRequest.answer_enrolling {r : PropertyRef}
    (hr : (Provider.property r).Enrolled roll) (request : PropertyRequest) :
    Enrolling (request.answer r) roll fun _ _ => True := by
  cases request with
  | copy into => exact .bind (.apply hr (.pure trivial))
  | set x => exact .bind (setPayload_enrolling fun _ _ => .pure trivial)
  | unset =>
    exact .bind (changeProperty_enrolling
      (fun _ hs => { hs with value := fun _ hq => by cases hq }) (.pure trivial))
  | finalize => exact .bind (.finalize hr fun _ _ => .pure trivial)
  | finalizeOnRead | disallowChanges | attach =>
    exact .bind (.lift (updateProperty_enrolls (fun _ hs => { hs with }) (.pure trivial)))
  | isFinalized => exact .bind (.property fun _ _ => .pure trivial)
  | name => exact .pure trivial
  | get => exact .bind (get_enrolling hr fun _ _ _ => .pure trivial)
  | getOrNone => exact .bind (get?_enrolling hr fun _ _ _ => .pure trivial)
  | isPresent => exact .bind (.presence hr fun _ _ _ => .pure trivial)
  | text | debugText => exact .bind (.lift ⟨hr, fun _ _ _ _ => .pure trivial⟩)

theorem DeclaredRequest.answer_enrolling {d : Declared PropertyRef Provider}
    (hr : ∀ r, d = .property r → (Provider.property r).Enrolled roll)
    (hp : ∀ p, d = .provider p → p.Enrolled roll) (request : DeclaredRequest) :
    Enrolling (request.answer d) roll fun _ _ => True := by
  cases d with
  | absent => cases request <;> exact .pure trivial
  | property r =>
    have hr := hr r rfl
    cases request with
    | call => exact .bind (get?_enrolling hr fun _ _ _ => .pure trivial)
    | producer => exact .bind (.producer hr fun _ _ _ => .pure trivial)
    | finalize => exact .bind (.finalize hr fun _ _ => .pure trivial)
  | provider p =>
    have hp := hp p rfl
    cases request with
    | call => exact .bind (get?_enrolling hp fun _ _ _ => .pure trivial)
    | producer => exact .bind (.producer hp fun _ _ _ => .pure trivial)
    | finalize => exact .pure trivial

/-! ### Steps -/

theorem built_enrolling {r : Recipe} {post : Roll → Provider → Prop}
    (h : ∀ roll' q, roll <+: roll' → q.Enrolled roll' → post roll' q) :
    Enrolling (built r) roll post := by
  refine .bind (.build fun roll₁ q hle hq => ?_)
  cases q with
  | some q => exact .pure (h roll₁ q hle hq)
  | none => exact .throw _

theorem runAll_enrolls (body : List Step) {post : Roll → List Reply → Prop}
    (h : ∀ roll' rs, roll <+: roll' → post roll' rs) : (runAll body).Enrolls roll post := by
  induction body generalizing roll post with
  | nil => exact h roll [] List.prefix_rfl
  | cons s ss ih =>
    refine (Eval.enrolls_bind _ _).mpr ⟨trivial, fun roll₁ r hle _ => ?_⟩
    exact (Eval.enrolls_bind _ _).mpr (ih fun roll₂ rs hle' => h roll₂ _ (hle.trans hle'))

theorem runRounds_enrolls (body : List Step) (n : Nat) {post : Roll → List Reply → Prop}
    (h : ∀ roll' rs, roll <+: roll' → post roll' rs) : (runRounds body n).Enrolls roll post := by
  fun_induction runRounds body n generalizing roll with
  | case1 => exact h roll [] List.prefix_rfl
  | case2 => exact runAll_enrolls body h
  | case3 n ih =>
    refine (Eval.enrolls_bind _ _).mpr (runAll_enrolls body fun roll₁ _ hle => ih ?_)
    exact fun roll₂ rs hle' => h roll₂ rs (hle.trans hle')

theorem carryOut_enrolling (s : Step) : Enrolling (carryOut s) roll fun _ _ => True := by
  cases s with
  | iterate n body => exact .bind (.lift (runRounds_enrolls body n fun _ _ _ => .pure trivial))
  | onThread body => exact .bind (.lift (runAll_enrolls body fun _ _ _ => .pure trivial))
  | tryRun owner body =>
    refine .bind (lookupOwner_enrolling fun o ho => .lift ⟨ho, fun _ => trivial, ?_⟩)
    exact (Eval.enrolls_bind _ _).mpr (runAll_enrolls body fun _ _ _ => trivial)
  | runEffect e x => exact .lift performEffect_enrolls
  | scope request => exact request.answer_enrolling
  | producer request => exact request.answer_enrolling
  | provider e request => exact .bind (built_enrolling fun _ _ _ hq => request.answer_enrolling hq)
  | same a b =>
    refine .bind (built_enrolling fun _ _ _ _ => ?_)
    exact .bind (built_enrolling fun _ _ _ _ => .pure trivial)
  | newProperty p type name =>
    exact .lift ⟨some (.property ⟨roll.length, type, name⟩),
      ⟨List.getElem?_concat_length, trivial⟩, trivial⟩
  | property p request =>
    exact .bind (lookupProperty_enrolling fun r hr => .asUserCode (request.answer_enrolling hr))
  | setProvider p e =>
    refine .bind (built_enrolling fun _ q _ hq => .bind (lookupProperty_enrolling fun r _ => ?_))
    exact .bind (.asUserCode (setProvider_enrolling hq (.pure trivial)))
  | convention p e =>
    refine .bind (built_enrolling fun _ q _ hq => .bind (lookupProperty_enrolling fun r _ => ?_))
    exact .bind (.asUserCode (changeProperty_enrolling
      (fun _ hs => { hs with convention := fun _ h => Option.some.inj h ▸ hq }) (.pure trivial)))
  | declared d request =>
    cases d with
    | property name =>
      refine .bind (.bind (lookupProperty_enrolling fun r hr => .pure (.asUserCode ?_)))
      exact request.answer_enrolling (fun _ h => by cases h; exact hr) fun _ h => by cases h
    | provider r =>
      refine .bind (.bind (built_enrolling fun _ q _ hq => .pure (.asUserCode ?_)))
      exact request.answer_enrolling (fun _ h => by cases h) fun _ h => by cases h; exact hq
    | absent =>
      refine .bind (.pure (.asUserCode ?_))
      exact request.answer_enrolling (fun _ h => by cases h) fun _ h => by cases h
  | value v request => exact request.answer_enrolling v
  | valueWithEffect v e => exact updateValue_enrolling
  | valueTransform v f type into => exact transformValue_enrolling
  | classification v request => exact request.answer_enrolling v
  | classificationChanging v e =>
    exact .bind (built_enrolling fun _ q _ hq => .lift (keepClassification_enrolls hq))
  | classificationWithEffect v e => exact addClassificationEffect_enrolling

/-- The rule for steps keeps to the roll. -/
theorem evalStep_enrolls (s : Step) : (evalStep s).Enrolls roll fun _ _ => True :=
  (Eval.enrolls_bind _ _).mpr (Eval.Enrolls.imp (carryOut_enrolling s) fun _ _ _ => trivial)

end ProviderGraph

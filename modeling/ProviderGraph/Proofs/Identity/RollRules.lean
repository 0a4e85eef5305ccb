import ProviderGraph.Evaluation.Build
import ProviderGraph.Evaluation.Classify
import ProviderGraph.Evaluation.Finalize
import ProviderGraph.Evaluation.Presence
import ProviderGraph.Evaluation.Production
import ProviderGraph.Evaluation.Render
import ProviderGraph.Proofs.Identity.RollEvaluations

/-!
# The rules keep the roll

Whatever user code a provider calls, its rules ask about its parts, about what its properties hold
and about what they build, and all of this is on the roll.
-/

namespace ProviderGraph

variable {roll : Roll} {p : Provider}

/-! ### Parts -/

theorem applyTransform_enrolling {f : Closure} {x : Payload}
    {post : Roll → Option Payload → Prop} (hp : p.Enrolled roll)
    (h : ∀ roll' y, roll <+: roll' → post roll' y) :
    Enrolling (applyTransform p f x) roll post := by
  refine .bind (.within hp.id_lt (.lift ⟨trivial, fun roll' r hle _ => ?_⟩))
  exact .settle ⟨hp.mono hle, fun _ _ _ _ => trivial⟩ fun y _ => h roll' y hle

/-- A flat map goes on with a provider on the roll. -/
theorem chooseNext_enrolling {choice : Recipe} {type : PayloadType} {v : Outcome}
    {post : Roll → Provider → Prop} (hp : p.Enrolled roll)
    (h : ∀ roll' q, roll <+: roll' → q.Enrolled roll' → post roll' q) :
    Enrolling (chooseNext p choice type v) roll post := by
  refine .bind (.within hp.id_lt (.lift ?_))
  cases v with
  | missing path =>
    refine .bind (.settle ⟨hp, fun _ _ _ _ => trivial⟩ fun q hq => ?_)
    cases hq
    exact .lift (freshUndefined_enrolls h)
  | present x e =>
    refine ⟨trivial, fun roll₁ r hle hr => .bind (.settle ?_ fun q hq => ?_)⟩
    · exact ⟨hp.mono hle, fun _ _ _ _ => trivial⟩
    · have hnext (roll₂ : Roll) (q : Provider) (hle' : roll₁ <+: roll₂) :=
        h roll₂ q (hle.trans hle')
      cases q with
      | none => exact .lift (freshUndefined_enrolls hnext)
      | some q => exact .lift (wrapEffect_enrolls (hr _ hq) hnext)

theorem backing_enrolling {base : Provider} {choice : Recipe} {type : PayloadType}
    {post : Roll → Provider → Prop} (hp : p.Enrolled roll) (hbase : base.Enrolled roll)
    (h : ∀ roll' q, roll <+: roll' → q.Enrolled roll' → post roll' q) :
    Enrolling (backing p base choice type) roll post := by
  refine .bind (.within hp.id_lt (.value hbase fun roll₁ v hle => ?_))
  have hnext (roll₂ : Roll) (q : Provider) (hle' : roll₁ <+: roll₂) := h roll₂ q (hle.trans hle')
  split
  · exact .lift (freshUndefined_enrolls hnext)
  · exact chooseNext_enrolling (hp.mono hle) hnext

/-! ### Values -/

theorem finalizeFor_enrolling {r : PropertyRef} {c : Reading} {post : Roll → Unit → Prop}
    (hr : (Provider.property r).Enrolled roll) (h : ∀ roll', roll <+: roll' → post roll' ()) :
    Enrolling (finalizeFor r c) roll post := by
  refine .bind (.property fun s _ => ?_)
  split
  · exact .finalize hr h
  · exact .pure (h roll List.prefix_rfl)

/-- The rule for values keeps to the roll. -/
theorem evalValue_enrolling (hp : p.Enrolled roll) (c : Reading) :
    Enrolling (evalValue p c) roll fun _ _ => True := by
  have hid := hp.id_lt
  cases p with
  | fixed | undefined => exact .pure trivial
  | changing i type node calls =>
    refine .bind (.lift (nextCall_enrolls fun roll₁ r hle => ?_))
    exact .bind (.settle trivial fun y _ => .pure trivial)
  | map i base f type =>
    refine .bind (.within hid (.value hp.2 fun roll₁ v hle => ?_))
    cases v with
    | missing path => exact .pure trivial
    | present x e => exact .bind (applyTransform_enrolling (hp.mono hle) fun _ _ _ => .pure trivial)
  | flatMap i base choice type =>
    refine .bind (.within hid (.value hp.2 fun roll₁ v hle => ?_))
    split
    · exact .pure trivial
    · refine .bind (chooseNext_enrolling (hp.mono hle) fun roll₂ q hle' hq => ?_)
      exact .within ((hp.mono hle).mono hle').id_lt (.value hq fun _ _ _ => trivial)
  | orElse i left right =>
    refine .bind (.within hid (.value hp.2.1 fun roll₁ l hle => ?_))
    split
    · refine .bind (.within (hp.mono hle).id_lt (.value (hp.mono hle).2.2 fun _ r _ => ?_))
      split <;> exact .pure trivial
    · exact .pure trivial
  | withEffect i inner e =>
    exact .bind (.within hid (.value hp.2 fun _ _ _ => .pure trivial))
  | named i inner name => exact .within hid (.value hp.2 fun _ _ _ => trivial)
  | property r =>
    refine .bind (finalizeFor_enrolling hp fun roll₁ hle => .bind (.property fun s hs => ?_))
    split
    · next q hq =>
      exact .within (hp.mono hle).id_lt (.value (hs.effective hq) fun _ _ _ => trivial)
    · exact .pure trivial
  | custom i form producer calls effect =>
    refine .bind (.apply trivial (.bind (.lift (nextCall_enrolls fun roll₁ r hle => ?_))))
    refine .bind (.settle trivial fun y _ => ?_)
    cases y <;> exact .pure trivial

/-! ### Presence and producers -/

theorem evaluatedPresence_enrolling (hp : p.Enrolled roll) :
    Enrolling (evaluatedPresence p) roll fun _ _ => True :=
  .bind (.ownValue hp fun _ _ _ => .pure trivial)

/-- The rule for presence keeps to the roll. -/
theorem evalPresence_enrolling (hp : p.Enrolled roll) (c : Reading) :
    Enrolling (evalPresence p c) roll fun _ _ => True := by
  have hid := hp.id_lt
  cases p with
  | fixed | undefined => exact .pure trivial
  | changing i type node calls =>
    cases node with
    | none => exact .bind (.ownValue hp fun _ _ _ => .pure trivial)
    | some name => exact .pure trivial
  | map => exact evaluatedPresence_enrolling hp
  | flatMap i base choice type =>
    refine .bind (backing_enrolling hp hp.2 fun roll₁ q hle hq => ?_)
    exact .within (hp.mono hle).id_lt (.presence hq fun _ _ _ => trivial)
  | orElse i left right =>
    refine .bind (.within hid (.presence hp.2.1 fun roll₁ b hle => ?_))
    split
    · exact .pure trivial
    · exact .within (hp.mono hle).id_lt (.presence (hp.mono hle).2.2 fun _ _ _ => trivial)
  | withEffect | named => exact .within hid (.presence hp.2 fun _ _ _ => trivial)
  | property r =>
    refine .bind (.property fun s hs => ?_)
    split
    · next q hq => exact .within hid (.presence (hs.effective hq) fun _ _ _ => trivial)
    · exact .pure trivial
  | custom i form producer calls effect =>
    rw [evalPresence]
    split
    · exact evaluatedPresence_enrolling hp
    · refine .bind (.apply trivial ?_)
      split
      · exact .pure trivial
      · refine .bind (.lift (nextCall_enrolls fun _ r _ => ?_))
        exact .bind (.settle trivial fun _ _ => .pure trivial)

/-- The rule for producers keeps to the roll. -/
theorem evalProducer_enrolling (hp : p.Enrolled roll) :
    Enrolling (evalProducer p) roll fun _ _ => True := by
  have hid := hp.id_lt
  cases p with
  | fixed | undefined => exact .pure trivial
  | changing i type node calls => cases node <;> exact .pure trivial
  | map | withEffect | named => exact .within hid (.producer hp.2 fun _ _ _ => trivial)
  | flatMap i base choice type =>
    refine .bind (backing_enrolling hp hp.2 fun roll₁ q hle hq => ?_)
    exact .within (hp.mono hle).id_lt (.producer hq fun _ _ _ => trivial)
  | orElse i left right =>
    refine .bind (.within hid (.producer hp.2.1 fun roll₁ l hle => .bind ?_))
    exact .within (hp.mono hle).id_lt (.producer (hp.mono hle).2.2 fun _ _ _ => .pure trivial)
  | property r =>
    refine .bind (.property fun s hs => ?_)
    split
    · exact .pure trivial
    · next q _ hq =>
      exact .bind (.within hid (.producer (hs.effective hq) fun _ _ _ => .pure trivial))
    · exact .pure trivial
  | custom => exact .bind (.apply trivial (.pure trivial))

/-! ### Classification -/

theorem addEffect_enrolls {c : Classification} (hc : c.Enrolled roll) (e : Effect) :
    (c.addEffect e).Enrolls roll fun roll' d => d.Enrolled roll' := by
  cases c with
  | fixed | missing => trivial
  | changing p =>
    exact (Eval.enrolls_bind _ _).mpr <| Eval.enrolls_identity (.withEffect _ p e)
      fun roll₁ hle he => ⟨he, Provider.Enrolled.mono hc hle⟩

theorem addName_enrolls {c : Classification} (hc : c.Enrolled roll) (name : String) :
    (c.addName name).Enrolls roll fun roll' d => d.Enrolled roll' := by
  cases c with
  | fixed | missing => trivial
  | changing p =>
    exact (Eval.enrolls_bind _ _).mpr <| Eval.enrolls_identity (.named _ p name)
      fun roll₁ hle he => ⟨he, Provider.Enrolled.mono hc hle⟩

/-- The rule for classifications keeps to the roll. -/
theorem evalClassification_enrolling (hp : p.Enrolled roll) :
    Enrolling (evalClassification p) roll fun roll' c => c.Enrolled roll' := by
  have hid := hp.id_lt
  cases p with
  | fixed | undefined => exact .pure trivial
  | changing i type node calls =>
    exact .bind (.lift (Eval.enrolls_identity (.changing _ type node calls) fun roll₁ hle he =>
      .pure ⟨he, Nat.lt_of_lt_of_le hp.2 hle.length_le⟩))
  | map i base f type =>
    refine .bind (.within hid (.classification hp.2 fun roll₁ c hle hc => ?_))
    cases c with
    | missing path => exact .pure trivial
    | fixed x e =>
      refine .bind (applyTransform_enrolling (hp.mono hle) fun _ y _ => ?_)
      cases y <;> exact .pure trivial
    | changing q =>
      exact .bind (.lift (Eval.enrolls_identity (.map _ q f type) fun roll₂ hle' he =>
        .pure ⟨he, Provider.Enrolled.mono hc hle'⟩))
  | flatMap i base choice type =>
    refine .bind (.within hid (.classification hp.2 fun roll₁ c hle hc => ?_))
    cases c with
    | missing path => exact .pure trivial
    | changing q =>
      exact .bind (.lift (Eval.enrolls_identity (.flatMap _ q choice type) fun roll₂ hle' he =>
        .pure ⟨he, Provider.Enrolled.mono hc hle'⟩))
    | fixed x e =>
      refine .bind (chooseNext_enrolling (hp.mono hle) fun roll₂ q hle' hq => ?_)
      exact .within ((hp.mono hle).mono hle').id_lt (.classification hq fun _ _ _ hc => hc)
  | orElse i left right =>
    refine .bind (.within hid (.classification hp.2.1 fun roll₁ l hle hl => ?_))
    split
    · exact .pure hl
    · refine .bind (.within (hp.mono hle).id_lt
        (.classification (hp.mono hle).2.2 fun roll₂ r hle' hr => ?_))
      split
      · exact .pure hr
      · split
        · exact .pure (hl.mono hle')
        · -- both sides are kept, so both are turned into providers before the identity is taken
          refine .bind (.lift (toProvider_enrolls (hl.mono hle') fun roll₃ q hle₃ hq => ?_))
          refine .bind (.lift (toProvider_enrolls (hr.mono hle₃) fun roll₄ q' hle₄ hq' => ?_))
          exact .bind (.lift (Eval.enrolls_identity (.orElse _ q q') fun roll₅ hle₅ he =>
            .pure ⟨he, (hq.mono hle₄).mono hle₅, hq'.mono hle₅⟩))
  | withEffect i inner e =>
    exact .bind (.within hid (.classification hp.2 fun _ _ _ hc =>
      .lift (addEffect_enrolls hc e)))
  | named i inner name =>
    exact .bind (.within hid (.classification hp.2 fun _ _ _ hc =>
      .lift (addName_enrolls hc name)))
  | property r =>
    refine .bind (.property fun s hs => ?_)
    split
    · next q hq => exact .within hid (.classification (hs.effective hq) fun _ _ _ hc => hc)
    · exact .pure trivial
  | custom i form producer calls effect =>
    refine .bind (.apply trivial (.bind (.lift (nextCall_enrolls fun roll₁ r hle => ?_))))
    refine .bind (.settle trivial fun y _ => ?_)
    cases y <;> exact .pure trivial

/-! ### Texts -/

theorem describe_enrolls (hp : p.Enrolled roll) : (describe p).Enrolls roll fun _ _ => True := by
  cases p with
  | fixed | undefined | changing | named => trivial
  | map | flatMap | withEffect => exact ⟨hp.2, fun _ _ _ _ => trivial⟩
  | orElse i left right =>
    exact ⟨hp.2.1, fun _ _ hle _ => ⟨hp.2.2.mono hle, fun _ _ _ _ => trivial⟩⟩
  | property r =>
    rw [describe]
    split
    · trivial
    · refine (Eval.enrolls_bind _ _).mpr (Eval.enrolls_property fun s hs => ?_)
      split
      · next q hq => exact ⟨hs.effective hq, fun _ _ _ _ => trivial⟩
      · trivial
  | custom i form producer calls effect =>
    rw [describe]
    split <;> trivial

theorem render_enrolls (hp : p.Enrolled roll) (label : String) :
    (render p label).Enrolls roll fun _ _ => True :=
  ⟨hp.id_lt, fun _ => trivial, (describe_enrolls hp).imp fun _ _ _ => trivial⟩

/-! ### Properties -/

/-- What the property holds after a change is on the roll. -/
theorem changeProperty_enrolling {r : PropertyRef} {f : Property → Property}
    {post : Roll → Unit → Prop} (hf : ∀ s : Property, s.Enrolled roll → (f s).Enrolled roll)
    (h : post roll ()) : Enrolling (changeProperty r f) roll post := by
  refine .bind (.property fun s hs => ?_)
  cases hchange : s.change r.label f with
  | error e => exact .throw e
  | ok t =>
    refine .apply ?_ h
    rw [Property.change] at hchange
    split at hchange
    · cases hchange
    · split at hchange
      · cases hchange
      · exact Except.ok.inj hchange ▸ hf s hs

theorem setProvider_enrolling {r : PropertyRef} {post : Roll → Unit → Prop}
    (hp : p.Enrolled roll) (h : post roll ()) : Enrolling (setProvider r p) roll post :=
  changeProperty_enrolling
    (fun _ hs => { hs with value := fun _ hq => Option.some.inj hq ▸ hp }) h

theorem setPayload_enrolling {r : PropertyRef} {x : Payload} {post : Roll → Unit → Prop}
    (h : ∀ roll', roll <+: roll' → post roll' ()) : Enrolling (setPayload r x) roll post :=
  .bind (.lift (freshFixed_enrolls fun roll' _ hle hp => setProvider_enrolling hp (h roll' hle)))

theorem updateProperty_enrolls {i : Identity} {f : Property → Property}
    {post : Roll → Unit → Prop} (hf : ∀ s : Property, s.Enrolled roll → (f s).Enrolled roll)
    (h : post roll ()) : (updateProperty i f).Enrolls roll post :=
  (Eval.enrolls_bind _ _).mpr (Eval.enrolls_property fun s hs => ⟨hf s hs, h⟩)

theorem Property.Enrolled.commit {s : Property} (hs : s.Enrolled roll) (hp : p.Enrolled roll)
    (t : Producer) : (s.commit p t).Enrolled roll := by
  rw [Property.commit]
  split
  · exact hs
  · exact ⟨fun _ hq => Option.some.inj hq ▸ hp, fun _ hq => by cases hq⟩

theorem computeFrozen_enrolling {r : PropertyRef} {held : Option Provider}
    {post : Roll → Provider × Producer → Prop} (hr : (Provider.property r).Enrolled roll)
    (hheld : ∀ q, held = some q → q.Enrolled roll)
    (h : ∀ roll' q t, roll <+: roll' → q.Enrolled roll' → post roll' (q, t)) :
    Enrolling (computeFrozen r held) roll post := by
  cases held with
  | none =>
    exact .bind (.lift (freshUndefined_enrolls fun roll₁ q hle hq =>
      .pure (h roll₁ q .none hle hq)))
  | some q =>
    have hq := hheld q rfl
    refine .bind (.within hr.id_lt (.producer hq fun roll₁ t hle => .bind ?_))
    refine .within (hr.mono hle).id_lt (.value (hq.mono hle) fun roll₂ v hle' => .bind ?_)
    refine .lift (toProvider_enrolls ?_ fun roll₃ q hle'' hq => ?_)
    · cases v <;> trivial
    · exact .pure (h roll₃ q t ((hle.trans hle').trans hle'') hq)

/-- Finalizing a property keeps to the roll. -/
theorem evalFinalize_enrolling {r : PropertyRef} (hr : (Provider.property r).Enrolled roll) :
    Enrolling (evalFinalize r) roll fun _ _ => True := by
  refine .bind (.property fun s hs => ?_)
  split
  · exact .pure trivial
  · refine .bind (computeFrozen_enrolling hr (fun _ => hs.effective) fun roll₁ q t _ hq => ?_)
    exact .lift (updateProperty_enrolls (fun s hs => hs.commit hq t) trivial)

/-! ### User code -/

theorem lookupProperty_enrolling {name : String} {post : Roll → PropertyRef → Prop}
    (h : ∀ r, (Provider.property r).Enrolled roll → post roll r) :
    Enrolling (lookupProperty name) roll post :=
  .bind (.machine fun _ hm => .ofExcept fun r hr =>
    h r (hm.references name r (find?_of_content hr)))

theorem lookupProvider_enrolling {name : String} {post : Roll → Provider → Prop}
    (h : ∀ q : Provider, q.Enrolled roll → post roll q) :
    Enrolling (lookupProvider name) roll post :=
  .bind (.machine fun _ hm => .ofExcept fun q hq =>
    h q (hm.providers name q (find?_of_content hq)))

theorem perform_enrolls (deeds : List (Action × Payload)) {post : Roll → Unit → Prop}
    (h : ∀ roll', roll <+: roll' → post roll' ()) : (perform deeds).Enrolls roll post := by
  induction deeds generalizing roll with
  | nil => exact h roll List.prefix_rfl
  | cons deed deeds ih =>
    exact ⟨trivial, fun roll₁ _ hle _ => ih fun roll₂ hle' => h roll₂ (hle.trans hle')⟩

theorem unpack_enrolling {v : Outcome} {post : Roll → Payload → Prop}
    (h : ∀ roll' x, roll <+: roll' → post roll' x) : Enrolling (unpack v) roll post := by
  cases v with
  | missing path => exact .throw _
  | present x e => exact .bind (.lift (perform_enrolls _ fun roll' hle => .pure (h roll' x hle)))

theorem unpack?_enrolling {v : Outcome} {post : Roll → Option Payload → Prop}
    (h : ∀ roll' x, roll <+: roll' → post roll' x) : Enrolling (unpack? v) roll post := by
  cases v with
  | missing path => exact .pure (h roll none List.prefix_rfl)
  | present x e =>
    exact .map (unpack_enrolling fun roll' y hle => h roll' (some y) hle)

theorem get_enrolling {post : Roll → Payload → Prop} (hp : p.Enrolled roll)
    (h : ∀ roll' x, roll <+: roll' → post roll' x) : Enrolling (Ask.get p) roll post :=
  .bind (.value hp fun _ _ hle => unpack_enrolling fun roll' x hle' => h roll' x (hle.trans hle'))

theorem get?_enrolling {post : Roll → Option Payload → Prop} (hp : p.Enrolled roll)
    (h : ∀ roll' x, roll <+: roll' → post roll' x) : Enrolling (Ask.get? p) roll post :=
  .bind (.value hp fun _ _ hle => unpack?_enrolling fun roll' x hle' => h roll' x (hle.trans hle'))

/-- Running an action keeps to the roll. -/
theorem evalAction_enrolling (a : Action) (held : Option Payload) (x : Payload) :
    Enrolling (evalAction a held x) roll fun _ _ => True := by
  cases a with
  | compute f =>
    rw [evalAction]
    cases f x with
    | ok y => exact .pure trivial
    | error failure => exact .throw failure
  | held => exact .pure trivial
  | andThen first second =>
    refine .bind (.action fun _ y _ => ?_)
    cases y with
    | some y => exact .action fun _ _ _ => trivial
    | none => exact .pure trivial
  | both left right =>
    refine .bind (.action fun _ y _ => .bind (.action fun _ z _ => ?_))
    split <;> exact .pure trivial
  | dispatch f => exact .action fun _ _ _ => trivial
  | record label => exact .bind (.apply trivial (.pure trivial))
  | perform s =>
    exact .bind (.lift ⟨trivial, fun _ _ _ _ => .bind (.apply trivial (.pure trivial))⟩)
  | elsewhere a => exact .elsewhere (.action fun _ _ _ => trivial)
  | inquire q r =>
    refine .bind (.build fun _ p _ hp => ?_)
    cases p with
    | none => exact .pure trivial
    | some p =>
      refine .asUserCode ?_
      cases q with
      | get => exact .map (get_enrolling hp fun _ _ _ => trivial)
      | getOrNone => exact get?_enrolling hp fun _ _ _ => trivial
      | isPresent => exact .bind (.presence hp fun _ _ _ => .pure trivial)
  | assign name a =>
    refine .bind (.action fun _ y _ => ?_)
    cases y with
    | none => exact .pure trivial
    | some y =>
      exact .bind (lookupProperty_enrolling fun r _ =>
        .bind (.asUserCode (setPayload_enrolling fun _ _ => .pure trivial)))
  | finalize name =>
    exact .bind (lookupProperty_enrolling fun r hr =>
      .bind (.asUserCode (.finalize hr fun _ _ => .pure trivial)))
  | depth => exact .bind (.machine fun _ _ => .pure trivial)

/-! ### Recipes -/

theorem withPart_enrolling {r : Recipe} {held : Option Payload}
    {next : Provider → UserCode Provider}
    (h : ∀ roll' (q : Provider), roll <+: roll' → q.Enrolled roll' →
      Enrolling (next q) roll' fun roll' q => q.Enrolled roll') :
    Enrolling (withPart r held next) roll Built := by
  refine .bind (.build fun roll₁ q hle hq => ?_)
  cases q with
  | none => exact .pure trivial
  | some q => exact .map (h roll₁ q hle hq)

/-- A leaf that makes calls takes an identity, and its counter the next one. -/
theorem freshLeaf_enrolling {code : Nat → Action} {held : Option Payload}
    {f : Identity → Calls → Provider} {post : Roll → Option Provider → Prop}
    (h : ∀ roll' i calls, calls.counter < roll'.length → roll'[i]? = some (some (f i calls)) →
      post roll' (some (f i calls))) :
    Enrolling (do return some (f (← Eval.identity) (← freshCalls code held)) : UserCode _) roll
      post := by
  refine .bind (.lift ⟨some (f roll.length ⟨roll.length + 1, code, held⟩), .bind (.lift ?_)⟩)
  exact ⟨none, .pure (h _ _ _ (by simp) (by simp))⟩

/-- What a recipe describes is on the roll. -/
theorem evalRecipe_enrolling (r : Recipe) (held : Option Payload) :
    Enrolling (evalRecipe r held) roll Built := by
  cases r with
  | register name => exact .map (lookupProvider_enrolling fun _ hq => hq)
  | fixed x => exact .bind (.lift (freshFixed_enrolls fun _ _ _ hq => .pure hq))
  | undefined type => exact .bind (.lift (freshUndefined_enrolls fun _ _ _ hq => .pure hq))
  | property name => exact .bind (lookupProperty_enrolling fun _ hq => .pure hq)
  | changing type code =>
    exact freshLeaf_enrolling (f := fun i calls => .changing i type none calls)
      fun _ _ _ hcounter he => ⟨he, hcounter⟩
  | produced type node code =>
    exact .bind (.ofExcept fun name _ =>
      freshLeaf_enrolling (f := fun i calls => .changing i type (some name) calls)
        fun _ _ _ hcounter he => ⟨he, hcounter⟩)
  | custom form code effect =>
    exact .bind (.machine fun m _ =>
      freshLeaf_enrolling (f := fun i calls => .custom i form _ calls effect)
        fun _ _ _ hcounter he => ⟨he, hcounter⟩)
  | map base f type =>
    refine withPart_enrolling fun roll₁ q _ hq => ?_
    exact .bind (.lift (Eval.enrolls_identity (.map _ q ⟨f, held⟩ type) fun _ hle he =>
      .pure ⟨he, hq.mono hle⟩))
  | flatMap base choice type =>
    refine withPart_enrolling fun roll₁ q _ hq => ?_
    exact .bind (.lift (Eval.enrolls_identity (.flatMap _ q choice type) fun _ hle he =>
      .pure ⟨he, hq.mono hle⟩))
  | orElse left right =>
    refine .bind (.build fun roll₁ l hle hl => ?_)
    cases l with
    | none => exact .pure trivial
    | some l =>
      refine withPart_enrolling fun roll₂ r hle' hr => ?_
      exact .bind (.lift (Eval.enrolls_identity (.orElse _ l r) fun _ hle'' he =>
        .pure ⟨he, (Provider.Enrolled.mono hl hle').mono hle'', hr.mono hle''⟩))
  | withEffect inner e =>
    refine withPart_enrolling fun roll₁ q _ hq => ?_
    exact .bind (.lift (Eval.enrolls_identity (.withEffect _ q e) fun _ hle he =>
      .pure ⟨he, hq.mono hle⟩))
  | named inner name =>
    refine withPart_enrolling fun roll₁ q _ hq => ?_
    exact .bind (.lift (Eval.enrolls_identity (.named _ q name) fun _ hle he =>
      .pure ⟨he, hq.mono hle⟩))
  | result a =>
    refine .bind (.ofExcept fun x _ => .bind (.action fun _ y _ => ?_))
    cases y with
    | none => exact .pure trivial
    | some y => exact .bind (.lift (freshFixed_enrolls fun _ _ _ hq => .pure hq))
  | after a next =>
    refine .bind (.ofExcept fun x _ => .bind (.action fun _ y _ => ?_))
    cases y with
    | none => exact .pure trivial
    | some y => exact .build fun _ _ _ hq => hq
  | dispatch f => exact .bind (.ofExcept fun x _ => .build fun _ _ _ hq => hq)

end ProviderGraph

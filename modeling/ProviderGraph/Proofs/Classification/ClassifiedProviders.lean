import ProviderGraph.Proofs.Reference.ScopeDisciplines

/-!
# How providers are classified

The rules for what is known of a provider ahead of execution, one for each way that the parts of a
provider may be classified. What is rebuilt from a classification is plain if all that it is rebuilt
from is plain.
-/

namespace ProviderGraph

open Provider (chosen ofClassification withEffectOn nameOn)

/-- The provider is classified so on a stack, scope by scope. -/
inductive Provider.Classified (m : Machine) : ScopeStack → Provider → Classification → Prop where
  | fixed {s : ScopeStack} {i : Identity} {x : Payload} :
    Classified m s (.fixed i x) (.fixed x none)
  | undefined {s : ScopeStack} {i : Identity} {type : PayloadType} {path : List String} :
    Classified m s (.undefined i type path) (.missing path)
  | changing {s : ScopeStack} {i : Identity} {type : PayloadType} {node : Option String}
      {calls : Calls} :
    Classified m s (.changing i type node calls) (.changing (.changing m.supply type node calls))
  | mapMissing {s t : ScopeStack} {i : Identity} {base : Provider} {f : Closure}
      {type : PayloadType} {path : List String} (ht : m.nesting s (.map i base f type) t)
      (h : Classified m t base (.missing path)) :
    Classified m s (.map i base f type) (.missing path)
  | mapFixed {s t : ScopeStack} {i : Identity} {base : Provider} {f : Closure}
      {type : PayloadType} {x : Payload} {e : Option Effect} {y : Option Payload}
      (ht : m.nesting s (.map i base f type) t) (h : Classified m t base (.fixed x e))
      (hy : f.code.result f.held x = .ok y) :
    Classified m s (.map i base f type)
      (.ofValue ((Value.ofOption y).withEffect (SideEffect.boundTo x e)))
  | mapChanging {s t : ScopeStack} {i : Identity} {base q : Provider} {f : Closure}
      {type : PayloadType} (ht : m.nesting s (.map i base f type) t)
      (h : Classified m t base (.changing q)) :
    Classified m s (.map i base f type) (.changing (.map m.supply q f type))
  | flatMapMissing {s t : ScopeStack} {i : Identity} {base : Provider} {choice : Recipe}
      {type : PayloadType} {path : List String} (ht : m.nesting s (.flatMap i base choice type) t)
      (h : Classified m t base (.missing path)) :
    Classified m s (.flatMap i base choice type) (.missing path)
  | flatMapFixed {s t : ScopeStack} {i : Identity} {base q : Provider} {choice : Recipe}
      {type : PayloadType} {x : Payload} {e : Option Effect} {c : Classification}
      (ht : m.nesting s (.flatMap i base choice type) t) (h : Classified m t base (.fixed x e))
      (hq : chosen m choice type x (SideEffect.boundTo x e) = .ok q) (h' : Classified m t q c) :
    Classified m s (.flatMap i base choice type) c
  | flatMapChanging {s t : ScopeStack} {i : Identity} {base q : Provider} {choice : Recipe}
      {type : PayloadType} (ht : m.nesting s (.flatMap i base choice type) t)
      (h : Classified m t base (.changing q)) :
    Classified m s (.flatMap i base choice type) (.changing (.flatMap m.supply q choice type))
  | orFixed {s t : ScopeStack} {i : Identity} {l r : Provider} {x : Payload} {e : Option Effect}
      (ht : m.nesting s (.orElse i l r) t) (h : Classified m t l (.fixed x e)) :
    Classified m s (.orElse i l r) (.fixed x e)
  | orMissing {s t : ScopeStack} {i : Identity} {l r : Provider} {path : List String}
      {c : Classification} (ht : m.nesting s (.orElse i l r) t)
      (h : Classified m t l (.missing path)) (h' : Classified m t r c) :
    Classified m s (.orElse i l r) c
  | orAlone {s t : ScopeStack} {i : Identity} {l r q : Provider} {path : List String}
      (ht : m.nesting s (.orElse i l r) t) (h : Classified m t l (.changing q))
      (h' : Classified m t r (.missing path)) :
    Classified m s (.orElse i l r) (.changing q)
  | orBoth {s t : ScopeStack} {i : Identity} {l r q : Provider} {c : Classification}
      (ht : m.nesting s (.orElse i l r) t) (h : Classified m t l (.changing q))
      (h' : Classified m t r c) (hc : c.isMissing = false) :
    Classified m s (.orElse i l r) (.changing (.orElse m.supply q (ofClassification m r.type c)))
  | withEffect {s t : ScopeStack} {i : Identity} {inner : Provider} {e : Effect}
      {c : Classification} (ht : m.nesting s (.withEffect i inner e) t)
      (h : Classified m t inner c) :
    Classified m s (.withEffect i inner e) (withEffectOn m e c)
  | named {s t : ScopeStack} {i : Identity} {inner : Provider} {name : String}
      {c : Classification} (ht : m.nesting s (.named i inner name) t) (h : Classified m t inner c) :
    Classified m s (.named i inner name) (nameOn m name c)
  | held {s t : ScopeStack} {r : PropertyRef} {q : Provider} {c : Classification}
      (hq : (m.property r.id).effective = some q) (ht : m.nesting s (.property r) t)
      (h : Classified m t q c) :
    Classified m s (.property r) c
  | unset {s : ScopeStack} {r : PropertyRef} (hq : (m.property r.id).effective = none) :
    Classified m s (.property r) (.missing [])

variable {m : Machine} {s t : ScopeStack} {p q : Provider} {c : Classification}
  {type : PayloadType} {reading : Reading}

/-- What the engine at rest knows of the parts of a provider, asked for in its scope, is known by the
rules. -/
def Provider.PartsClassified (m : Machine) (s : ScopeStack) (p : Provider) : Prop :=
  ∀ q c, (Agenda.demand (.classification q)).Yields m m.nesting s p c →
    ∃ t, m.nesting s p t ∧ q.Classified m t c

namespace Provider.PartsClassified

open Agenda

variable {i : Identity} {base left right : Provider} {f : Closure} {choice : Recipe}

theorem map (hparts : (Provider.map i base f type).PartsClassified m s)
    (h : m.Yields m.nesting s (.classification (.map i base f type)) c) :
    (Provider.map i base f type).Classified m s c := by
  obtain ⟨b, hb, h⟩ := yields_bind_iff.mp h
  obtain ⟨t, ht, hb⟩ := hparts _ _ hb
  cases b with
  | missing path =>
    obtain rfl := yields_pure_iff.mp h
    exact .mapMissing ht hb
  | fixed x e =>
    obtain ⟨y, hy, h⟩ := yields_bind_iff.mp h
    cases y with
    | none =>
      obtain rfl := yields_pure_iff.mp h
      exact .mapFixed ht hb (yields_done_iff.mp hy)
    | some y =>
      obtain rfl := yields_pure_iff.mp h
      exact .mapFixed ht hb (yields_done_iff.mp hy)
  | changing q =>
    obtain rfl := yields_pure_iff.mp h
    exact .mapChanging ht hb

/-- A flat map is classified by the rules if its parts are. -/
theorem flatMap (hparts : (Provider.flatMap i base choice type).PartsClassified m s)
    (h : m.Yields m.nesting s (.classification (.flatMap i base choice type)) c) :
    (Provider.flatMap i base choice type).Classified m s c := by
  obtain ⟨b, hb, h⟩ := yields_bind_iff.mp h
  obtain ⟨t, ht, hb⟩ := hparts _ _ hb
  cases b with
  | missing path =>
    obtain rfl := yields_pure_iff.mp h
    exact .flatMapMissing ht hb
  | fixed x e =>
    obtain ⟨q, hq, h⟩ := yields_bind_iff.mp h
    obtain ⟨t', ht', h⟩ := hparts _ _ h
    obtain rfl := Except.ok.inj (ht.symm.trans ht')
    exact .flatMapFixed ht hb (yields_done_iff.mp hq) h
  | changing q =>
    obtain rfl := yields_pure_iff.mp h
    exact .flatMapChanging ht hb

/-- A fallback is classified by the rules if its parts are. -/
theorem orElse (hparts : (Provider.orElse i left right).PartsClassified m s)
    (h : m.Yields m.nesting s (.classification (.orElse i left right)) c) :
    (Provider.orElse i left right).Classified m s c := by
  obtain ⟨l, hl, h⟩ := yields_bind_iff.mp h
  obtain ⟨t, ht, hl⟩ := hparts _ _ hl
  cases l with
  | fixed x e =>
    obtain rfl := yields_pure_iff.mp h
    exact .orFixed ht hl
  | missing path =>
    obtain ⟨r, hr, h⟩ := yields_bind_iff.mp h
    obtain ⟨t', ht', hr⟩ := hparts _ _ hr
    obtain rfl := Except.ok.inj (ht.symm.trans ht')
    obtain rfl := yields_pure_iff.mp h
    exact .orMissing ht hl hr
  | changing q =>
    obtain ⟨r, hr, h⟩ := yields_bind_iff.mp h
    obtain ⟨t', ht', hr⟩ := hparts _ _ hr
    obtain rfl := Except.ok.inj (ht.symm.trans ht')
    cases r with
    | missing path =>
      obtain rfl := yields_pure_iff.mp h
      exact .orAlone ht hl hr
    | fixed x e =>
      obtain rfl := yields_pure_iff.mp h
      exact .orBoth ht hl hr rfl
    | changing q' =>
      obtain rfl := yields_pure_iff.mp h
      exact .orBoth ht hl hr rfl

theorem property {r : PropertyRef} (hparts : (Provider.property r).PartsClassified m s)
    (h : m.Yields m.nesting s (.classification (.property r)) c) :
    (Provider.property r).Classified m s c := by
  rw [Machine.Yields, Demand.agenda, classificationAgenda] at h
  split at h
  · next q hq =>
    obtain ⟨t, ht, h⟩ := hparts _ _ h
    exact .held hq ht h
  · next hq =>
    obtain rfl := yields_pure_iff.mp h
    exact .unset hq

end Provider.PartsClassified

open Agenda in
/-- What the engine at rest knows of a provider is known by the rules. -/
theorem Provider.Classified.of_yields (h : m.Yields m.nesting s (.classification p) c) :
    p.Classified m s c := by
  generalize hr : s.room = n
  induction n using Nat.strongRecOn generalizing s p c with
  | ind n ih =>
    have hparts : p.PartsClassified m s := by
      intro q c h
      obtain ⟨t, ht, h⟩ := yields_demand_iff.mp h
      exact ⟨t, ht, ih _ (hr ▸ ht.room_lt) h rfl⟩
    cases p with
    | fixed i x =>
      obtain rfl := yields_pure_iff.mp h
      exact .fixed
    | undefined i type path =>
      obtain rfl := yields_pure_iff.mp h
      exact .undefined
    | changing i type node calls =>
      obtain rfl := yields_pure_iff.mp h
      exact .changing
    | map i base f type => exact hparts.map h
    | flatMap i base choice type => exact hparts.flatMap h
    | orElse i left right => exact hparts.orElse h
    | withEffect i inner e =>
      obtain ⟨b, hb, h⟩ := yields_bind_iff.mp h
      obtain ⟨t, ht, hb⟩ := hparts _ _ hb
      obtain rfl := yields_pure_iff.mp h
      exact .withEffect ht hb
    | named i inner name =>
      obtain ⟨b, hb, h⟩ := yields_bind_iff.mp h
      obtain ⟨t, ht, hb⟩ := hparts _ _ hb
      obtain rfl := yields_pure_iff.mp h
      exact .named ht hb
    | property r => exact hparts.property h
    | custom => cases yields_done_iff.mp h

/-! ### What is rebuilt is plain -/

theorem Provider.allPlain_undefined {i : Identity} {path : List String} :
    (Provider.undefined i type path).AllPlain m reading :=
  .of_leads trivial fun _ h => nomatch h

/-- A rebuilt effect leaves the graph plain. -/
theorem Provider.AllPlain.rebuildEffect {e : Effect} (h : p.AllPlain m reading) :
    (Provider.withEffect m.supply p e).AllPlain m reading :=
  .of_leads trivial fun | _, .withEffect => h

/-- A rebuilt name leaves the graph plain. -/
theorem Provider.AllPlain.rebuildName {name : String} (h : p.AllPlain m reading) :
    (Provider.named m.supply p name).AllPlain m reading :=
  .of_leads trivial fun | _, .named => h

/-- What a fixed classification is turned into is plain. -/
theorem Provider.allPlain_ofClassification {x : Payload} {e : Option Effect} :
    (ofClassification m type (.fixed x e)).AllPlain m reading := by
  have hx : (Provider.fixed m.supply x).AllPlain m reading := .of_leads trivial fun _ h => nomatch h
  cases e with
  | none => exact hx
  | some e => exact hx.rebuildEffect

/-- The provider that is rebuilt from a classification is plain. -/
theorem Provider.Classified.allPlain (h : p.Classified m s c) (hp : p.AllPlain m reading)
    (type : PayloadType) : (ofClassification m type c).AllPlain m reading := by
  induction h generalizing type with
  | fixed => exact allPlain_ofClassification
  | undefined | mapMissing | flatMapMissing | unset => exact allPlain_undefined
  | changing => exact .of_leads hp.plain fun _ h => nomatch h
  | @mapFixed _ _ _ _ _ _ _ _ y =>
    cases y with
    | none => exact allPlain_undefined
    | some y => exact allPlain_ofClassification
  | mapChanging _ _ ih =>
    refine .of_leads hp.plain fun _ h => ?_
    cases h
    exact ih (hp.leads .map) type
  | flatMapFixed _ _ hq _ _ ih' => exact ih' (hp.leads (.chosen hq)) type
  | flatMapChanging _ _ ih =>
    refine .of_leads hp.plain fun _ h => ?_
    cases h with
    | flatMap => exact ih (hp.leads .flatMap) type
    | chosen hq => exact hp.leads (.chosen hq)
    | absent => exact allPlain_undefined
  | orFixed => exact allPlain_ofClassification
  | orMissing _ _ _ _ ih' => exact ih' (hp.leads .right) type
  | orAlone _ _ _ ih => exact ih (hp.leads .left) type
  | orBoth _ _ _ _ ih ih' =>
    refine .of_leads trivial fun _ h => ?_
    cases h with
    | left => exact ih (hp.leads .left) type
    | right => exact ih' (hp.leads .right) _
  | @withEffect _ _ _ _ _ c _ _ ih =>
    cases c with
    | fixed => exact allPlain_ofClassification
    | changing => exact (ih (hp.leads .withEffect) type).rebuildEffect
    | missing => exact allPlain_undefined
  | @named _ _ _ _ _ c _ _ ih =>
    cases c with
    | fixed => exact allPlain_ofClassification
    | changing => exact (ih (hp.leads .named) type).rebuildName
    | missing => exact allPlain_undefined
  | held hq _ _ ih => exact ih (hp.leads (.property hq)) type

end ProviderGraph

import ProviderGraph.Session.Run

/-!
# Renaming of identities

Identities only tell things from one another. A renaming gives other identities to providers,
properties, counters and owners, wherever these occur: on the scope stack, in registers, in the
properties of a machine, in what a session tells. The operations of the machine commute with it.
-/

namespace ProviderGraph

/-- A renaming of identities, and of the identity that comes next. -/
structure Renaming where
  apply : Identity → Identity
  injective : Function.Injective apply
  next : Identity → Identity

instance : CoeFun Renaming fun _ => Identity → Identity := ⟨Renaming.apply⟩

instance : Coe Renaming (Identity → Identity) := ⟨Renaming.apply⟩

namespace Renaming

/-- The identity `i` is renamed as the one that comes next, when it comes next. -/
def Follows (ρ : Renaming) (i : Identity) : Prop := ρ i = ρ.next i ∧ ρ.next (i + 1) = ρ.next i + 1

variable (ρ : Renaming) {i j : Identity}

@[simp] theorem apply_inj : ρ i = ρ j ↔ i = j := ρ.injective.eq_iff

@[simp] theorem beq_apply (i j : Identity) : (ρ i == ρ j) = (i == j) := by
  rw [Bool.eq_iff_iff, beq_iff_eq, beq_iff_eq, ρ.apply_inj]

end Renaming

/-! ### Tables -/

namespace Table

variable {κ κ' α β : Type} [BEq κ] [BEq κ'] (f : κ → κ') (g : α → β)

def rename (t : Table κ α) : Table κ' β := t.map (Prod.map f g)

variable {f} (hf : ∀ k l, (f k == f l) = (k == l)) (t : Table κ α) (k : κ)
include hf

/-- A key is found under its new name. -/
theorem find?_rename : (t.rename f g).find? (f k) = (t.find? k).map g := by
  induction t with
  | nil => rfl
  | cons e t ih =>
    change List.lookup (f k) ((f e.1, g e.2) :: Table.rename f g t) = (List.lookup k (e :: t)).map g
    rw [List.lookup_cons, List.lookup_cons, hf]
    cases k == e.1 with
    | true => rfl
    | false => exact ih

theorem erase_rename : (t.rename f g).erase (f k) = (t.erase k).rename f g := by
  rw [erase, rename, List.filter_map, erase, rename]
  exact congrArg (List.map _) (List.filter_congr fun e _ => congrArg _ (hf e.1 k))

theorem set_rename (a : α) : (t.rename f g).set (f k) (g a) = (t.set k a).rename f g :=
  congrArg ((f k, g a) :: ·) (t.erase_rename g hf k)

end Table

abbrev Table.mapEntries {α β : Type} (g : α → β) (t : Table String α) : Table String β :=
  t.rename id g

/-! ### Providers -/

variable (σ : Identity → Identity)

def Calls.rename (calls : Calls) : Calls := { calls with counter := σ calls.counter }

def PropertyRef.rename (r : PropertyRef) : PropertyRef := { r with id := σ r.id }

def Provider.rename : Provider → Provider
  | .fixed i x => .fixed (σ i) x
  | .undefined i type path => .undefined (σ i) type path
  | .changing i type node calls => .changing (σ i) type node (calls.rename σ)
  | .map i base f type => .map (σ i) base.rename f type
  | .flatMap i base choice type => .flatMap (σ i) base.rename choice type
  | .orElse i left right => .orElse (σ i) left.rename right.rename
  | .withEffect i inner e => .withEffect (σ i) inner.rename e
  | .named i inner name => .named (σ i) inner.rename name
  | .property r => .property (r.rename σ)
  | .custom i form producer calls e => .custom (σ i) form producer (calls.rename σ) e

def Owner.rename (o : Owner) : Owner := { o with id := σ o.id }

namespace Provider

variable (p : Provider)

@[simp] theorem id_rename : (p.rename σ).id = σ p.id := by cases p <;> rfl

@[simp] theorem kind_rename : (p.rename σ).kind = p.kind := by cases p <;> rfl

@[simp] theorem declaredName_rename : (p.rename σ).declaredName = p.declaredName := by
  cases p <;> rfl

@[simp] theorem type_rename : (p.rename σ).type = p.type := by
  induction p <;> simp_all [rename, type, PropertyRef.rename]

@[simp] theorem knownType_rename : (p.rename σ).knownType = p.knownType := by
  induction p <;> simp_all [rename, knownType, type, PropertyRef.rename]

end Provider

def Classification.rename : Classification → Classification
  | .fixed x e => .fixed x e
  | .changing p => .changing (p.rename σ)
  | .missing path => .missing path

namespace Classification

variable (c : Classification)

@[simp] theorem toValue_rename : (c.rename σ).toValue = c.toValue := by cases c <;> rfl

@[simp] theorem isFixed_rename : (c.rename σ).isFixed = c.isFixed := by cases c <;> rfl

@[simp] theorem isMissing_rename : (c.rename σ).isMissing = c.isMissing := by cases c <;> rfl

@[simp] theorem changing?_rename :
    (c.rename σ).changing? = c.changing?.map (Provider.rename σ) := by
  cases c <;> rfl

@[simp] theorem rename_ofValue (v : Outcome) : (ofValue v).rename σ = ofValue v := by
  cases v <;> rfl

end Classification

/-! ### Scopes -/

def ScopeStack.rename (s : ScopeStack) : ScopeStack :=
  { s with frames := s.frames.map (Owner.rename σ) }

namespace ScopeStack

variable (ρ : Renaming) (s : ScopeStack) (o : Owner) (i : Identity)

@[simp] theorem depth_rename : (s.rename ρ).depth = s.depth := by simp [rename, depth]

@[simp] theorem isOpen_rename : (s.rename ρ).isOpen (ρ i) = s.isOpen i := by
  simp only [isOpen, rename, List.any_map]
  exact congrArg _ (funext fun o => ρ.beq_apply o.id i)

@[simp] theorem cycleFrom_rename : (s.rename ρ).cycleFrom (ρ i) = s.cycleFrom i := by
  simp only [cycleFrom, rename, List.map_map, List.findIdx_map]
  rw [show (fun o : Owner => o.id == ρ i) ∘ Owner.rename ρ = fun o => o.id == i from
    funext fun o => ρ.beq_apply o.id i]
  rfl

/-- Scopes are opened under their new names, and cycles and limits are met alike. -/
theorem enter_rename : (s.rename ρ).enter (o.rename ρ) = (s.enter o).map (rename ρ) := by
  have hopen := s.isOpen_rename ρ o.id
  have hcycle := s.cycleFrom_rename ρ o.id
  rw [enter, enter]
  simp only [Owner.rename, hopen, hcycle, depth_rename]
  cases s.isOpen o.id with
  | true => rfl
  | false => by_cases hlimit : s.limit ≤ s.depth <;> simp [hlimit, rename, Except.map, Owner.rename]

/-- Scopes are closed under their new names. -/
theorem leave_rename : (s.rename ρ).leave (ρ i) = (s.leave i).rename ρ := by
  simp only [leave, rename, List.eraseP_map]
  rw [show (fun o : Owner => o.id == ρ i) ∘ Owner.rename ρ = fun o => o.id == i from
    funext fun o => ρ.beq_apply o.id i]

end ScopeStack

/-! ### Properties -/

def Property.rename (s : Property) : Property :=
  { s with
    value := s.value.map (Provider.rename σ)
    convention := s.convention.map (Provider.rename σ) }

namespace Property

variable (s : Property)

@[simp] theorem effective_rename :
    (s.rename σ).effective = s.effective.map (Provider.rename σ) := by
  obtain ⟨_ | v, _⟩ := s <;> rfl

theorem finalized_rename : (s.rename σ).finalized = s.finalized := rfl

theorem changesDisallowed_rename : (s.rename σ).changesDisallowed = s.changesDisallowed := rfl

theorem mustFinalize_rename (c : Reading) : (s.rename σ).mustFinalize c = s.mustFinalize c := by
  cases c <;> rfl

theorem commit_rename (p : Provider) (t : Producer) :
    (s.rename σ).commit (p.rename σ) t = (s.commit p t).rename σ := by
  cases h : s.finalized <;> simp [commit, rename, h]

/-- Changes are refused alike, and do the same to renamed properties. -/
theorem change_rename (label : String) {f f' : Property → Property}
    (hf : ∀ s, f' (s.rename σ) = (f s).rename σ) :
    (s.rename σ).change label f' = (s.change label f).map (rename σ) := by
  rw [change, change, hf, finalized_rename, changesDisallowed_rename]
  cases s.finalized <;> cases s.changesDisallowed <;> rfl

end Property

/-! ### What a session tells -/

mutual
def Reply.rename : Reply → Reply
  | .classification c shown => .classification (c.rename σ) shown
  | .replies rs => .replies (Reply.renameAll rs)
  | r => r

def Reply.renameAll : List Reply → List Reply
  | [] => []
  | r :: rs => r.rename :: Reply.renameAll rs
end

theorem Reply.renameAll_eq (rs : List Reply) : Reply.renameAll σ rs = rs.map (Reply.rename σ) := by
  induction rs with
  | nil => rfl
  | cons r rs ih => exact congrArg (r.rename σ :: ·) ih

theorem Reply.rename_replies (rs : List Reply) :
    (Reply.replies rs).rename σ = .replies (rs.map (Reply.rename σ)) :=
  congrArg Reply.replies (Reply.renameAll_eq σ rs)

def Event.rename : Event → Event
  | .note s => .note s
  | .reply r => .reply (r.rename σ)

def Report.rename (r : Report) : Report where
  reply := r.reply.rename σ
  events := r.events.map (Event.rename σ)
  depth := r.depth

/-! ### Machines -/

def Typed.map {α β : Type} (f : α → β) (x : Typed α) : Typed β := ⟨x.type, f x.content⟩

def Locals.rename (l : Locals) : Locals :=
  { l with
    classifications := l.classifications.mapEntries (Typed.map (Classification.rename σ))
    scopes := l.scopes.mapEntries σ }

def Machine.rename (ρ : Renaming) (m : Machine) : Machine where
  stack := m.stack.rename ρ
  threadLimit := m.threadLimit
  locals := m.locals.rename ρ
  supply := ρ.next m.supply
  properties := m.properties.rename ρ (Property.rename ρ)
  counters := m.counters.rename ρ id
  providerRegisters := m.providerRegisters.mapEntries (Provider.rename ρ)
  propertyRegisters := m.propertyRegisters.mapEntries (PropertyRef.rename ρ)
  ownerRegisters := m.ownerRegisters.mapEntries (Owner.rename ρ)
  events := m.events.map (Event.rename ρ)

def Change.rename : Change → Change
  | .bump i => .bump (σ i)
  | .note e => .note (e.rename σ)
  | .setProperty i s => .setProperty (σ i) (s.rename σ)
  | .keepProperty name r => .keepProperty name (r.rename σ)
  | .keepProvider name p => .keepProvider name (p.rename σ)
  | .keepOwner name o => .keepOwner name (o.rename σ)
  | .keepValue name v => .keepValue name v
  | .dropValue name => .dropValue name
  | .keepClassification name c => .keepClassification name (c.map (Classification.rename σ))
  | .keepProducer name t => .keepProducer name t
  | .closeScope name => .closeScope name
  | .setLimit limit => .setLimit limit

namespace Table

variable {α β : Type} (g : α → β) (t : Table String α) (name : String)

theorem find?_mapEntries : (t.mapEntries g).find? name = (t.find? name).map g :=
  t.find?_rename g (fun _ _ => rfl) name

theorem erase_mapEntries : (t.mapEntries g).erase name = (t.erase name).mapEntries g :=
  t.erase_rename g (fun _ _ => rfl) name

theorem set_mapEntries (a : α) : (t.mapEntries g).set name (g a) = (t.set name a).mapEntries g :=
  t.set_rename g (fun _ _ => rfl) name a

theorem setSome_mapEntries (name : Option String) (a : α) :
    (t.mapEntries g).setSome name (g a) = (t.setSome name a).mapEntries g := by
  cases name with
  | none => rfl
  | some name => exact t.set_mapEntries g name a

end Table

namespace Machine

variable (ρ : Renaming) (m : Machine) (i : Identity)

@[simp] theorem property_rename : (m.rename ρ).property (ρ i) = (m.property i).rename ρ := by
  rw [property, property]
  change (Option.getD (Table.find? (m.properties.rename ρ _) _) _) = _
  rw [Table.find?_rename _ ρ.beq_apply]
  cases m.properties.find? i <;> rfl

@[simp] theorem count_rename : (m.rename ρ).count (ρ i) = m.count i := by
  rw [count, count]
  change (Option.getD (Table.find? (m.counters.rename ρ _) _) _) = _
  rw [Table.find?_rename _ ρ.beq_apply, Option.map_id]
  rfl

theorem closeScope_rename (name : String) :
    (m.rename ρ).closeScope name = (m.closeScope name).rename ρ := by
  have hfind := m.locals.scopes.find?_mapEntries ρ name
  have herase := m.locals.scopes.erase_mapEntries ρ name
  rw [closeScope, closeScope,
    show (m.rename ρ).locals.scopes = m.locals.scopes.mapEntries ρ from rfl, hfind]
  cases m.locals.scopes.find? name with
  | none => rfl
  | some i => simp [rename, Locals.rename, ScopeStack.leave_rename, herase]

/-- Changes commute with a renaming. -/
theorem after_rename (c : Change) : (m.rename ρ).after (c.rename ρ) = (m.after c).rename ρ := by
  cases c with
  | bump i =>
    have hset := m.counters.set_rename id ρ.beq_apply i (m.count i + 1)
    simp only [after, Change.rename, bump, count_rename]
    exact congrArg (fun t => { m.rename ρ with counters := t }) hset
  | note | setLimit => rfl
  | setProperty i s =>
    exact congrArg (fun t => { m.rename ρ with properties := t })
      (m.properties.set_rename (Property.rename ρ) ρ.beq_apply i s)
  | keepProperty name r =>
    exact congrArg (fun t => { m.rename ρ with propertyRegisters := t })
      (m.propertyRegisters.set_mapEntries (PropertyRef.rename ρ) name r)
  | keepProvider name p =>
    exact congrArg (fun t => { m.rename ρ with providerRegisters := t })
      (m.providerRegisters.set_mapEntries (Provider.rename ρ) name p)
  | keepOwner name o =>
    exact congrArg (fun t => { m.rename ρ with ownerRegisters := t })
      (m.ownerRegisters.set_mapEntries (Owner.rename ρ) name o)
  | keepValue | dropValue | keepProducer => rfl
  | keepClassification name c =>
    exact congrArg (fun t => { m.rename ρ with locals.classifications := t })
      (m.locals.classifications.setSome_mapEntries (Typed.map (Classification.rename ρ)) name c)
  | closeScope name => exact m.closeScope_rename ρ name

/-- A scope can be kept open under its new name where it can be under its old one. -/
theorem openScope_rename (name : String) (o : Owner) :
    (m.rename ρ).openScope name (o.rename ρ) = (m.openScope name o).map (rename ρ) := by
  have henter := m.stack.enter_rename ρ o
  rw [openScope, openScope]
  change (ScopeStack.enter (m.stack.rename ρ) (o.rename ρ) >>= _) = _
  rw [henter]
  cases m.stack.enter o with
  | error f => rfl
  | ok s =>
    have hclose := Machine.closeScope_rename ρ { m with stack := s } name
    change Except.ok (_ : Machine) = Except.ok _
    rw [show { m.rename ρ with stack := s.rename ρ } =
      Machine.rename ρ { m with stack := s } from rfl, hclose]
    generalize Machine.closeScope { m with stack := s } name = n
    exact congrArg (fun t => Except.ok { n.rename ρ with locals.scopes := t })
      (n.locals.scopes.set_mapEntries ρ.apply name o.id)

theorem dropLocals_rename (n : Machine) :
    Eval.dropLocals (m.rename ρ) (n.rename ρ) = (Eval.dropLocals m n).rename ρ := by
  have hleave (t : Table String Identity) (s : ScopeStack) :
      (t.mapEntries ρ).foldl (fun s e => s.leave e.2) (s.rename ρ) =
        (t.foldl (fun s e => s.leave e.2) s).rename ρ := by
    induction t generalizing s with
    | nil => rfl
    | cons e t ih =>
      refine (congrArg (fun s => (Table.mapEntries ρ.apply t).foldl _ s) ?_).trans (ih _)
      exact s.leave_rename ρ e.2
  exact congrArg (fun s => { n.rename ρ with stack := s, locals := m.locals.rename ρ })
    (hleave n.locals.scopes n.stack)

end Machine

end ProviderGraph

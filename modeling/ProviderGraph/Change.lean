import ProviderGraph.Machine

/-!
# Changes of the machine

Every way in which evaluation changes a machine, other than by opening scopes and handing out
identities, is a change that can be named.
-/

namespace ProviderGraph

inductive Change where
  /-- Count one more call. -/
  | bump (counter : Identity)
  | note (e : Event)
  | setProperty (i : Identity) (s : Property)
  | keepProperty (name : String) (p : PropertyRef)
  | keepProvider (name : String) (p : Provider)
  | keepOwner (name : String) (o : Owner)
  | keepValue (name : Option String) (v : Typed Outcome)
  | dropValue (name : String)
  | keepClassification (name : Option String) (c : Typed Classification)
  | keepProducer (name : Option String) (p : Producer)
  | closeScope (name : String)
  | setLimit (limit : Nat)

def Machine.after (m : Machine) : Change → Machine
  | .bump i => m.bump i
  | .note e => m.note e
  | .setProperty i s => m.setProperty i s
  | .keepProperty name p => m.keepProperty name p
  | .keepProvider name p => m.keepProvider name p
  | .keepOwner name o => m.keepOwner name o
  | .keepValue name v => m.keepValue name v
  | .dropValue name => m.dropValue name
  | .keepClassification name c => m.keepClassification name c
  | .keepProducer name p => m.keepProducer name p
  | .closeScope name => m.closeScope name
  | .setLimit limit => { m with stack := m.stack.setLimit limit }

end ProviderGraph

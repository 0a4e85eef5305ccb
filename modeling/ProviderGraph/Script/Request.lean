import ProviderGraph.Payload
import ProviderGraph.Reading

/-!
# Requests of a session

A session works on named registers. This module holds the requests of its steps that contain no
user code: what is asked of a scope, a provider, a property, a value or a classification. Where a
register `into` is named the result is kept there.
-/

namespace ProviderGraph

/-- How a producer tree is put together. -/
inductive ProducerTerm where
  | none
  | unknown
  | node (name : String)
  /-- A union as it stands. -/
  | union (parts : List ProducerTerm)
  /-- The parts joined from left to right. -/
  | plus (parts : List ProducerTerm)
  /-- The tree kept in a register. -/
  | register (name : String)

inductive ScopeRequest where
  /-- Make an owner, with a new identity or with that of another owner. -/
  | declare (owner label : String) (sameAs : Option String)
  | enter (owner into : String)
  | leave (register : String)
  | isOpen (owner : String)
  | depth
  | setLimit (limit : Nat)
  | limit

inductive ProducerRequest where
  | keep (term : ProducerTerm) (into : Option String)
  | same (a b : ProducerTerm)

/-- A question put to a provider through the scope of some other owner. -/
inductive GuardedRequest where
  | value (c : Reading)
  | presence (c : Reading)
  | producer
  | classification
  | type
  | text
  | inner

inductive ProviderRequest where
  | keep (into : String)
  | get
  | getOrNone
  | isPresent
  | presence (c : Reading)
  | value (c : Reading) (into : Option String)
  | ownValue (c : Reading) (into : Option String)
  | producer (into : Option String)
  | classification (into : Option String)
  | type
  | text
  | debugText
  | info
  | guarded (owner : String) (request : GuardedRequest)

inductive PropertyRequest where
  | copy (into : String)
  | set (x : Payload)
  | unset
  | finalize
  | finalizeOnRead
  | disallowChanges
  | attach (node : String)
  | isFinalized
  | name
  | get
  | getOrNone
  | isPresent
  | text
  | debugText

inductive DeclaredRequest where
  | call
  | producer
  | finalize

inductive ValueRequest where
  | present (x : Payload)
  | missing (type : PayloadType) (path : List String)
  | ofOption (type : PayloadType) (x : Option Payload)
  | get
  | getOrNone
  | push (name : Option String)
  | addPath (other : String)
  | asMissing (type : PayloadType) (into : Option String)
  /-- The effect of the value bound to its payload, run on `x`. -/
  | runBound (x : Payload)
  /-- The effect of the value, run on `x`. -/
  | runEffect (x : Payload)
  | inspect

inductive ClassificationRequest where
  | fixed (x : Payload)
  | missing (type : PayloadType) (path : List String)
  | ofValue (register : String)
  | inspect
  | toValue (into : Option String)
  | toProvider (into : String)
  | changing (into : String)

/-- A value declared on a work node: a property, a provider, or nothing at all. -/
inductive Declared (π ρ : Type) where
  | property (p : π)
  | provider (p : ρ)
  | absent

/-- The two kinds of provider that a session can bring along. -/
inductive CustomKind where
  /-- Answers only what every provider has to answer. -/
  | plain
  /-- Answers every question itself. -/
  | spy
deriving DecidableEq

def CustomKind.name : CustomKind → String
  | .plain => "plain"
  | .spy => "spy"

/-- What is fixed about a provider that a session brings along. -/
structure CustomForm where
  kind : CustomKind
  type : PayloadType
  label : String
  /-- The path of its missing values. -/
  path : List String
  producer : ProducerTerm
  /-- The answer to a question of presence, unless it is to be computed. -/
  presence : Option Bool

end ProviderGraph

import FieldTree.Field.Reading
import FieldTree.Journal

/-!
# Binding Values to Policies

A policy names a value and may ask for a type. The entries of a table are bound by key, the children of an
array by position; other fields have nothing to bind and are accepted.

Binding fails if a bound entry has a type other than its policy's, whose value then stays as it was, and if
there are entries left when there are no more policies to serve. In a table, a pair is looked at only while
fewer pairs than policies have matched.
-/

namespace FieldTree

/-- What is expected of a value, and the value. -/
structure Policy where
  /-- the key in a table; arrays do not look at it -/
  name : String
  /-- the type asked for; none for any -/
  kind : Option FieldType
  /-- the value that was bound -/
  value : Option Field := none
  deriving DecidableEq, Repr

namespace Policy

/-- Whether a field has a type that the policy accepts. -/
def accepts (p : Policy) (f : Field) : Bool :=
  match p.kind with
  | none => true
  | some kind => f.type == kind

/-- Binds a value, in the place of one that was bound before. -/
def take (p : Policy) (f : Field) : Policy := { p with value := some f }

/-- Binds nothing. -/
def clear (p : Policy) : Policy := { p with value := none }

end Policy

/-- Whether all went well, and the policies with their values. -/
structure Binding where
  ok : Bool
  policies : List Policy
  journal : Journal := []

namespace Binding

/-- The value of each policy. -/
def values (b : Binding) : List (Option Field) := b.policies.map (·.value)

/-- Binds a value to policy number `i`, if that accepts it. -/
def serve (b : Binding) (i : Nat) (key value : Field) : Binding :=
  if (b.policies[i]?).any (·.accepts value) then { b with policies := b.policies.modify i (·.take value) }
  else { b with ok := false, journal := b.journal ++ [.refusedValue key.text value.type] }

/-- Binds pairs of a table. `matched` counts the pairs that had a policy so far. -/
def ofPairs : (matched : Nat) → (sofar : Binding) → List (Field × Field) → Binding
  | _, sofar, [] => sofar
  | matched, sofar, (key, value) :: rest =>
    if matched = sofar.policies.length then { sofar with ok := false }
    else
      match sofar.policies.findIdx? (·.name == key.text) with
      | none => ofPairs matched sofar rest
      | some i => ofPairs (matched + 1) (sofar.serve i key value) rest

/-- Binds children of an array. -/
def ofChildren : List Policy → List Field → Binding
  | policies, [] => ⟨true, policies, []⟩
  | [], _ :: _ => ⟨false, [], []⟩
  | policy :: policies, child :: children =>
    let others := ofChildren policies children
    let accepted := policy.accepts child
    { others with
      ok := accepted && others.ok
      policies := (if accepted then policy.take child else policy) :: others.policies }

end Binding

/-- Binds the entries of a field to policies. -/
def Field.bind (f : Field) (policies : List Policy) : Binding :=
  -- nothing that was bound before stays
  let cleared := policies.map Policy.clear
  match f.type with
  | .table => .ofPairs 0 ⟨true, cleared, []⟩ f.pairs
  | .array => .ofChildren cleared f.children
  | _ => ⟨true, cleared, []⟩

end FieldTree

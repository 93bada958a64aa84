import Catalog.Patch.Operation

/-!
# Merge patches

A merge patch is an object whose leaves are everything but objects. A null leaf removes the member
it stands for, and any other leaf adds its value. The operations follow the order of the members,
depth first, so an object without members contributes none.
-/

namespace Catalog.Patch

mutual

/-- The operations of the value at a path. -/
def mergeValue (path : String) : Json → List Operation
  | .null => [.ofRemove path]
  | .object members => mergeMembers path members
  | value => [.ofAdd path value]

/-- The operations of the members of the object at a path. -/
def mergeMembers (path : String) : List (String × Json) → List Operation
  | [] => []
  | (name, value) :: rest =>
    mergeValue (path ++ "/" ++ Pointer.escape name) value ++ mergeMembers path rest

end

/-- The operations of a merge patch. -/
def ofMerge : Json → Except CompileError (List Operation)
  | .object members => .ok (mergeMembers "" members)
  | _ => .error (.path "" .notObject)

end Catalog.Patch

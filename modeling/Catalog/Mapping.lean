import Catalog.Text.Order

/-!
# Field mapping

Clients name fields by logical names; a stored document holds them at paths. A fixed table comes
first, then the entries learned from the catalog's schema, and any other name is its own path.
-/

namespace Catalog

/-- The entries learned from a schema, a path for each name. -/
structure Mapping where
  dynamic : List (String × String)
  deriving DecidableEq, Repr

namespace Mapping

/-- A mapping that has learned nothing. -/
def empty : Mapping := ⟨[]⟩

/-- The paths that every catalog has. -/
def fixedPaths : List (String × String) :=
  [("id", "id"),
    ("collection", "collection"),
    ("geometry", "geometry"),
    ("datetime", "properties.datetime"),
    ("start_datetime", "properties.start_datetime"),
    ("end_datetime", "properties.end_datetime"),
    ("created", "properties.created"),
    ("updated", "properties.updated"),
    ("cloud_cover", "properties.eo:cloud_cover"),
    ("cloud_shadow_percentage", "properties.s2:cloud_shadow_percentage"),
    ("nodata_pixel_percentage", "properties.s2:nodata_pixel_percentage")]

/-- The path of a name in the fixed table. -/
def fixedPath? (name : String) : Option String := fixedPaths.lookup name

/-- The path of a name that has an entry. -/
def path? (m : Mapping) (name : String) : Option String :=
  (fixedPath? name).or (m.dynamic.lookup name)

/-- The path of a name. -/
def resolve (m : Mapping) (name : String) : String := (m.path? name).getD name

/-- The name has an entry. -/
def isMapped (m : Mapping) (name : String) : Bool := (m.path? name).isSome

/-- The container that item properties are stored in, as clients write it in front of a name. -/
def propertiesOpening : String := "properties."

/-- A name without the container in front of it. It is taken off once. -/
def logicalName (name : String) : String :=
  let cs := name.toList
  if cs.take propertiesOpening.length = propertiesOpening.toList then
    String.ofList (cs.drop propertiesOpening.length)
  else name

end Mapping

end Catalog

import Catalog.Access.Bitstring
import Catalog.Json.Record
import Catalog.Text.Blank
import Catalog.Text.Decimal

/-!
# Settings

Every setting has a default, which is kept where the environment gives no usable value.
-/

namespace Catalog

/-- The settings of a catalog service. -/
structure Config where
  /-- Refuse fields that the catalog's schema does not define. -/
  validateFields : Bool
  /-- For how many seconds a schema stays fresh. -/
  timeToLive : Nat
  /-- The number of bits of an access bitstring. -/
  bitstringSize : Nat
  /-- The language of patch scripts. -/
  scriptLang : String
  /-- Patterns match letters of either case. -/
  caseInsensitiveLike : Bool
  /-- Merge patches make the containers that are missing. -/
  createOnMerge : Bool
  deriving DecidableEq, Repr

namespace Config

/-- The settings unless others are asked for. -/
def standard : Config := ⟨false, 1800, 1024, "painless", true, true⟩

/-- Read settings. -/
def ofJson? (v : Json) : Option Config := do
  let fields ← Json.record? ["validate_queryables", "queryables_cache_ttl_secs",
    "access_bitstring_size", "script_lang", "like_case_insensitive", "create_nest_on_merge"] v
  match fields with
  | [validate, ttl, size, lang, like, create] =>
    return {
      validateFields := ← Json.defaulted? standard.validateFields Json.asBool? validate
      timeToLive := ← Json.defaulted? standard.timeToLive Json.asNat? ttl
      bitstringSize := ← Json.defaulted? standard.bitstringSize Json.asNat? size
      scriptLang := ← Json.defaulted? standard.scriptLang Json.asText? lang
      caseInsensitiveLike := ← Json.defaulted? standard.caseInsensitiveLike Json.asBool? like
      createOnMerge := ← Json.defaulted? standard.createOnMerge Json.asBool? create }
  | _ => none

/-- A number given as text, with blanks around it. -/
def readNumber? (s : String) : Option Nat := Text.unsigned? (Text.trimChars s.toList)

/-- The settings of an environment. A number that cannot be read, a bitstring size that is too small
and a blank language leave the default. -/
def ofEnvironment (lookup : String → Option String) : Config where
  validateFields :=
    match lookup "VALIDATE_QUERYABLES" with
    | some s => (Text.trim s).toLower == "true"
    | none => standard.validateFields
  timeToLive := ((lookup "QUERYABLES_CACHE_TTL").bind readNumber?).getD standard.timeToLive
  bitstringSize :=
    (((lookup "ACCESS_BITSTRING_SIZE").bind readNumber?).filter (Bitstring.minSize ≤ ·)).getD
      standard.bitstringSize
  scriptLang :=
    (((lookup "PATCH_SCRIPT_LANG").map Text.trim).filter (· ≠ "")).getD standard.scriptLang
  caseInsensitiveLike := standard.caseInsensitiveLike
  createOnMerge := standard.createOnMerge

end Config

end Catalog

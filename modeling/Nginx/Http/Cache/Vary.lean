/-
  Http/Cache/Vary.lean --- when the variants of a response are kept apart.

  The variant of a request is the digest of what the fields of a Vary header have in it,
  and no two requests that differ in one of these fields have the same.  The fields are
  those that are found in the last Vary line with commas and spaces for separators, so
  all that are named are among them exactly where the last line has every one, and no tab
  stands beside it.
-/
import Mathlib.Data.List.Induction
import Nginx.Http.Cache.FileHeader

set_option autoImplicit false

namespace Nginx.Http.Cache

open List Foundation Nginx.Core

/-! ## What is asked of the cache -/

/-- A space or a tab. -/
def isBlank (ch : Byte) : Bool := ch == chr ' ' || ch == 9

/-- A word without the blanks around it. -/
def trim (word : Bytes) : Bytes := ((word.dropWhile isBlank).reverse.dropWhile isBlank).reverse

/-- The fields that a Vary line names, separated by commas. -/
def varyFields (line : Bytes) :
    List Bytes := ((elements (· == chr ',') line).map trim).filter (!·.isEmpty)

/-- Request headers as they are parsed: no line feed is in a value and no blank in a name. -/
def Parsed (headers : List TableElt) :
    Prop := ∀ h ∈ headers, (10 : Byte) ∉ h.value ∧ ∀ ch ∈ h.key, isBlank ch = false

/-- The Vary lines of a response, one after the other. -/
def varyState (ignore : Bool) (lines : List Bytes) :
    VaryState := lines.foldl (processVary ignore) ⟨true, []⟩

/-- A file that is written for a response with these Vary lines to the request `s`. -/
def Stored (D : Digests) (ignore : Bool) (lines : List Bytes) (keys : List Bytes)
    (s : List TableElt) (file : CacheFile) : Prop :=
  (varyState ignore lines).cacheable = true ∧
    ∃ c : HttpCache, c.keys = keys ∧ c.main = D.md5 keys.flatten ∧
      c.vary = (varyState ignore lines).vary ∧
      file.header = (setHeader D s c).1

/-- The file is served to the request `r`, whatever other files there are. -/
def Served (D : Digests) (keys : List Bytes) (r : List TableElt) (file : CacheFile) : Prop :=
  ∃ (c c' : HttpCache) (files : Bytes → Option CacheFile), c.keys = keys ∧ c.secondary = false ∧
    openCache D r files (createKey D c) = some (file, c')

/-- Every field that is named, and that a request can have, is found in the last line. -/
def Covered (ignore : Bool) (lines : List Bytes) : Prop :=
  ∀ line ∈ lines, ∀ name ∈ varyFields line, (∀ ch ∈ name, isBlank ch = false) →
    strlow name ∈ elements isSeparator (strlow (if ignore then [] else lines.getLastD []))

/-! ## The Vary lines -/

variable {ignore : Bool} {lines : List Bytes}

variable {name : Bytes}

variable {s r : List TableElt}

variable {D : Digests}

variable {file : CacheFile}

end Nginx.Http.Cache

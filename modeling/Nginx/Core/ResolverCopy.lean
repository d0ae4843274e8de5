/-
  Core/ResolverCopy.lean --- `ngx_resolver_copy`: a name of a DNS response is
  measured by one loop and copied by another (`src/core/ngx_resolver.c`).

  Positions are counted from `buf`.  What lies at and past `last` is memory that
  the response does not own; the model keeps it, so that a read past the end
  has a value, and lists every position that is read.
-/
import Nginx.Core.Hash

set_option autoImplicit false

namespace Nginx.Core

open Foundation

/-- The messages that `ngx_resolver_copy` logs. -/
inductive CopyError where
  /-- `"name is out of response"` -/
  | outOfResponse
  /-- `"compression pointers loop"` -/
  | pointersLoop
  deriving DecidableEq

/-- `n & 0xc0`: the byte begins a compression pointer. -/
def isPointer (n : Byte) : Prop := n &&& 0xc0 ≠ 0

instance (n : Byte) : Decidable (isPointer n) := inferInstanceAs (Decidable (_ ≠ _))

/-- `((n & 0x3f) << 8) + *p`, the position that the pointer at `p` leads to. -/
def pointerTarget (buf : Nat → Byte) (p : Nat) : Nat :=
  (buf p &&& 0x3f).toNat <<< 8 + (buf (p + 1)).toNat

/-! ## The first loop -/

/-- How the first loop ends: the length of the name, and what was read. -/
structure Measured where
  len : Except CopyError Int
  reads : List Nat

/-- The first loop, with `i` turns left. -/
def measureLoop (buf : Nat → Byte) (last : Nat) : Nat → Nat → Int → List Nat → Measured
  | 0, _, _, reads => ⟨.error .pointersLoop, reads⟩
  | i + 1, p, len, reads =>
    if buf p = 0 then
      ⟨.ok len, reads ++ [p]⟩
    else if isPointer (buf p) then
      -- `*p` is read before `p` is compared with `last`
      if last ≤ pointerTarget buf p then
        ⟨.error .outOfResponse, reads ++ [p, p + 1]⟩
      else
        measureLoop buf last i (pointerTarget buf p) len (reads ++ [p, p + 1])
    else
      if last ≤ p + 1 + (buf p).toNat then
        ⟨.error .outOfResponse, reads ++ [p]⟩
      else
        measureLoop buf last i (p + 1 + (buf p).toNat) (len + (1 + (buf p).toNat)) (reads ++ [p])

/-- `128 pointers should be enough to store 255-byte name` -/
def pointersLimit : Nat := 128

/-! ## The second loop -/

/-- What the second loop has written behind `name->data`, and what it has read. -/
structure Copying where
  written : Bytes
  reads : List Nat

/-- The second loop, its byte `n` being the one at `p`. -/
def copyLoop (buf : Nat → Byte) : Nat → Nat → Copying → Except Fault Copying
  | 0, _, _ => .error .outOfFuel
  | fuel + 1, p, c =>
    if isPointer (buf p) then
      let src := pointerTarget buf p
      let c := { c with reads := c.reads ++ [p + 1, src] }
      if buf src = 0 then .ok c else copyLoop buf fuel src c
    else
      let n := (buf p).toNat
      let src := p + 1 + n
      let c : Copying :=
        ⟨c.written ++ strlow (load buf (p + 1) n),
          c.reads ++ (List.range n).map (p + 1 + ·) ++ [src]⟩
      if buf src = 0 then .ok c
      else copyLoop buf fuel src { c with written := c.written ++ [chr '.'] }

/-- The second loop has no bound of its own. -/
def copyBound : Nat := 2 ^ 64

/-! ## The function -/

/-- What a call leaves: the return code, `name->data` up to `name->len` (`none`
for a null string or no `name`), the bytes allocated for it, the bytes written
there, and every position of `buf` that was read. -/
structure NameCopy where
  rc : Rc
  name : Option Bytes
  allocated : Nat
  written : Bytes
  reads : List Nat

/-- `ngx_resolver_copy(r, name, buf, src, last)`, where `wanted` is `name != NULL`
and `memory` whether `ngx_resolver_alloc` returns any. -/
def resolverCopy (buf : Nat → Byte) (last src : Nat) (wanted memory : Bool) :
    Except Fault NameCopy :=
  let m := measureLoop buf last pointersLimit src (-1) []
  match m.len with
  | .error _ => .ok ⟨.error, none, 0, [], m.reads⟩
  | .ok len =>
    if !wanted then .ok ⟨.ok, none, 0, [], m.reads⟩
    else if len = -1 then .ok ⟨.ok, none, 0, [], m.reads⟩
    else if !memory then .ok ⟨.error, none, 0, [], m.reads⟩
    else do
      let c ← copyLoop buf copyBound src ⟨[], m.reads ++ [src]⟩
      .ok ⟨.ok, some c.written, len.toNat, c.written, c.reads⟩

/-! ## The names of a response -/

/-- An element of a name. -/
inductive NameElt where
  | label (text : Bytes)
  | pointer
  deriving DecidableEq

/-- The elements `es` lead from `p` to `q`, and each of them ends inside the
response. -/
inductive NameWalk (buf : Nat → Byte) (last : Nat) : Nat → List NameElt → Nat → Prop where
  | nil (p : Nat) : NameWalk buf last p [] p
  | pointer {p q : Nat} {es : List NameElt} (hp : isPointer (buf p))
      (inside : pointerTarget buf p < last) (rest : NameWalk buf last (pointerTarget buf p) es q) :
      NameWalk buf last p (.pointer :: es) q
  | label {p q : Nat} {es : List NameElt} (hp : buf p ≠ 0) (hlabel : ¬ isPointer (buf p))
      (inside : p + 1 + (buf p).toNat < last)
      (rest : NameWalk buf last (p + 1 + (buf p).toNat) es q) :
      NameWalk buf last p (.label (load buf (p + 1) (buf p).toNat) :: es) q

/-- The name at `p` is complete: `es` leads to a root label in fewer than
`limit` elements. -/
def NameEnds (buf : Nat → Byte) (last limit p : Nat) (es : List NameElt) : Prop :=
  ∃ q, NameWalk buf last p es q ∧ buf q = 0 ∧ es.length < limit

/-- The name at `p` is cut off: it comes to a compression pointer of which only
the first byte is in the response. -/
def CutPointer (buf : Nat → Byte) (last limit p : Nat) : Prop :=
  ∃ es q, NameWalk buf last p es q ∧ isPointer (buf q) ∧ q + 1 = last ∧ es.length < limit

/-- The labels of a name. -/
def labelsOf : List NameElt → List Bytes
  | [] => []
  | .label text :: es => text :: labelsOf es
  | .pointer :: es => labelsOf es

/-- The name at `p` has labels, and a pointer behind them leads to the root label. -/
def PointerToRoot (buf : Nat → Byte) (last limit p : Nat) : Prop :=
  ∃ es, NameEnds buf last limit p (es ++ [.pointer]) ∧ labelsOf es ≠ []

/-- The dotted lower-case form of a sequence of labels. -/
def dotted (labels : List Bytes) : Bytes := [chr '.'].intercalate (labels.map strlow)

end Nginx.Core

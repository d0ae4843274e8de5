/-
  Http/Parse/UriReference.lean --- what the normalised path of a request URI
  is, by its parts: the path is cut off, its escapes are decoded once, repeated
  slashes are merged on request, and dot segments are removed.

  Only this file says what normalisation is for; the parser is not mentioned.
-/
import Nginx.Foundation.Segments
import Nginx.Http.Parse.Char

set_option autoImplicit false

namespace Nginx.Http.Parse

open Foundation
open Foundation.Segments

/-- The path part of a raw URI, up to the first raw `?` or `#`. -/
def cutPath (raw : Bytes) : Bytes := raw.takeWhile fun ch => ch ≠ chr '?' ∧ ch ≠ chr '#'

/-- How the decoding of a path ends. -/
inductive Escapes where
  /-- every `%` is followed by two hexadecimal digits, not both zero -/
  | whole
  /-- the path ends inside an escape -/
  | cutShort
  /-- some `%` is followed by something else, or a decoded byte is `NUL` -/
  | bad
  deriving DecidableEq

/-- Decode the escapes of a path once, as far as they are right. -/
def unescape : Bytes → Bytes × Escapes
  | [] => ([], .whole)
  | ch :: rest =>
      if ch = chr '%' then
        match rest with
        | [] => ([], .cutShort)
        | [a] => if (hexDigit? a).isSome then ([], .cutShort) else ([], .bad)
        | a :: b :: rest =>
            match hexDigit? a, hexDigit? b with
            | some hi, some lo =>
                if hi * 16 + lo = 0 then ([], .bad)
                else match unescape rest with
                  | (path, e) => ((hi * 16 + lo).toUInt8 :: path, e)
            | _, _ => ([], .bad)
      else match unescape rest with
        | (path, e) => (ch :: path, e)

/-- A decoded path, when its escapes are right to the end. -/
def percentDecode (path : Bytes) : Option Bytes :=
  if (unescape path).2 = .whole then some (unescape path).1 else none

/-- Leave one of several slashes in a row; `afterSlash` says whether the byte
before is one. -/
def mergeFrom : Bool → Bytes → Bytes
  | _, [] => []
  | afterSlash, ch :: rest =>
      if ch = chr '/' then
        if afterSlash then mergeFrom true rest else ch :: mergeFrom true rest
      else ch :: mergeFrom false rest

/-- The decoded path with repeated slashes merged, if they are to be. -/
def mergeSlashesIf (mergeSlashes : Bool) (path : Bytes) : Bytes :=
  if mergeSlashes then mergeFrom false path else path

/-- The segments of a path that starts with a slash. -/
def segments (path : Bytes) : List Bytes := path.tail.splitOn (chr '/')

/-- Remove the dot segments of a path that starts with a slash. -/
def removeDots (path : Bytes) : Option Bytes :=
  (removeDotSegments (ascii ".") (ascii "..") [] [] (segments path)).map (pathText (chr '/'))

/-- The normalised path of a raw URI that starts with a slash. -/
def referenceUri (mergeSlashes : Bool) (raw : Bytes) : Option Bytes := do
  let path ← percentDecode (cutPath raw)
  removeDots (mergeSlashesIf mergeSlashes path)

end Nginx.Http.Parse

/-!
# Version of the library
-/

namespace JsonStream

/-- A version number. -/
structure Version where
  major : Nat
  minor : Nat
  patch : Nat
deriving Repr, DecidableEq

/-- The version in its usual form. -/
def Version.text (v : Version) : String :=
  toString v.major ++ "." ++ toString v.minor ++ "." ++ toString v.patch

/-- The version of this library. -/
def version : Version := ⟨0, 1, 0⟩

end JsonStream

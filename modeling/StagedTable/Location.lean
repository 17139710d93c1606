/-!
# Locations

A location is a scheme, `://` and a rest: the scheme is an ASCII letter followed by ASCII
letters, digits, `+`, `.` or `-`; the rest is not empty and free of ASCII white space.

The texts meant are those that match the pattern `^[A-Za-z][A-Za-z0-9+.\-]*://\S+$`, under an
assumption on the engine that matches it: `$` holds at the very end of a text and nowhere else, not
before a line break either, and `\S` leaves out ASCII white space and nothing else, so that a rest
may contain the other white space of Unicode.  `accepts` decides the pattern read like this.

No scheme character is a colon, so a text has at most one way to be read as a location, and
`accepts` finds it by taking scheme characters for as long as there are any.
-/

namespace StagedTable.Location

def isSchemeChar (c : Char) : Bool := c.isAlphanum || c == '+' || c == '.' || c == '-'

/-- ASCII white space, which is what `\S` is assumed to leave out: tab to carriage return, and the
space -/
def isBlank (c : Char) : Bool := (9 ≤ c.toNat && c.toNat ≤ 13) || c.toNat == 32

/-- not empty and without white space -/
def acceptsRest (cs : List Char) : Bool := !cs.isEmpty && cs.all (!isBlank ·)

/-- what follows the scheme: the separator and a rest -/
def acceptsAfterScheme : List Char → Bool
  | ':' :: '/' :: '/' :: rest => acceptsRest rest
  | _ => false

def acceptsChars : List Char → Bool
  | [] => false
  | c :: cs => c.isAlpha && acceptsAfterScheme (cs.dropWhile isSchemeChar)

/-- whether the whole text matches, `$` being assumed to hold at its very end only -/
def accepts (s : String) : Bool := acceptsChars s.toList

/-! ## trailing slashes -/

/-- the characters up to the last one that is no slash -/
def trimSlashes (cs : List Char) : List Char := (cs.reverse.dropWhile (· == '/')).reverse

def dropTrailingSlashes (s : String) : String := String.ofList (trimSlashes s.toList)

theorem trimSlashes_append_slash (cs : List Char) : trimSlashes (cs ++ ['/']) = trimSlashes cs := by
  simp [trimSlashes]

theorem trimSlashes_append_of_ne {c : Char} (h : c ≠ '/') (cs : List Char) :
    trimSlashes (cs ++ [c]) = cs ++ [c] := by
  simp [trimSlashes, h]

theorem trimSlashes_idem (cs : List Char) : trimSlashes (trimSlashes cs) = trimSlashes cs := by
  simp only [trimSlashes, List.reverse_reverse]
  congr 1
  induction cs.reverse with
  | nil => rfl
  | cons c r ih =>
    rw [List.dropWhile_cons]
    split
    · exact ih
    · next h => rw [List.dropWhile_cons, if_neg h]

end StagedTable.Location

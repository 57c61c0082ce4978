/-!
# Domain names

A domain name is also the stem of a file name, so it has no room for separators or relative steps
at its start.
-/

namespace Confinement

/-- The ASCII letters and digits. -/
def isPlainLetter (c : Char) : Bool := c.isAlphanum

/-- The characters a domain name may contain. -/
def isNameCharacter (c : Char) : Bool := isPlainLetter c || c == '-' || c == '_' || c == '.'

/-- Names of 1 to 64 bytes that start with a letter or digit. -/
def isDomainName (s : String) : Bool :=
  s.utf8ByteSize ≤ 64 &&
    match s.toList with
    | [] => false
    | c :: rest => isPlainLetter c && rest.all isNameCharacter

structure DomainName where
  text : String
  valid : isDomainName text = true
  deriving DecidableEq

namespace DomainName

def ofString? (s : String) : Option DomainName :=
  if h : isDomainName s = true then some ⟨s, h⟩ else none

@[ext] theorem ext {m n : DomainName} (h : m.text = n.text) : m = n := by
  cases m; cases n; cases h; rfl

@[simp] theorem ofString?_text (n : DomainName) : ofString? n.text = some n := by
  simp [ofString?, n.valid]

end DomainName

end Confinement

import RecordRules.Rule.Filter

/-!
# Fresh ids

Ids come from a source that is passed on after each of them: a counter behind a text, or eight
random letters and digits.
-/

namespace RecordRules

/-- A state that yields ids. -/
class IdSource (σ : Type) where
  next : σ → String × σ

namespace IdSource

variable {σ : Type} [IdSource σ]

/-- The first `n` ids. -/
def take : Nat → σ → List String × σ
  | 0, s => ([], s)
  | n + 1, s =>
    let (id, s) := next s
    let (ids, s) := take n s
    (id :: ids, s)

/-- A group without conditions under a fresh id. -/
def emptyGroup (op : Connective) (s : σ) : Rule Draft × σ :=
  let (id, s) := next s
  (.group id op false [], s)

/-- An empty draft under a fresh id. -/
def emptyFilter (s : σ) : Rule Draft × σ :=
  let (id, s) := next s
  (.leaf (.empty id), s)

end IdSource

/-- A text followed by 1, 2, 3 and so on. -/
structure SequentialIds where
  start : String
  count : Nat

namespace SequentialIds

def new (start : String) : SequentialIds := ⟨start, 1⟩

instance : IdSource SequentialIds where
  next s := (s.start ++ String.ofList (Nat.toDigits 10 s.count), { s with count := s.count + 1 })

end SequentialIds

/-- Eight random characters out of the 36 digits and small letters, the same ones for the same
seed. -/
structure RandomIds where
  state : UInt64

namespace RandomIds

def alphabet : List Char := "0123456789abcdefghijklmnopqrstuvwxyz".toList

def idLength : Nat := 8

def seeded (seed : UInt64) : RandomIds := ⟨seed⟩

/-- One step of a 64-bit generator: a Weyl sequence whose terms are mixed. -/
def draw (r : RandomIds) : UInt64 × RandomIds :=
  let s := r.state + 0x9e3779b97f4a7c15
  let a := (s ^^^ (s >>> 30)) * 0xbf58476d1ce4e5b9
  let b := (a ^^^ (a >>> 27)) * 0x94d049bb133111eb
  (b ^^^ (b >>> 31), ⟨s⟩)

/-- The last `n` digits to base 36. -/
def characters : Nat → Nat → List Char
  | 0, _ => []
  | n + 1, x => alphabet.getD (x % 36) '0' :: characters n (x / 36)

instance : IdSource RandomIds where
  next r :=
    let (x, r) := r.draw
    (String.ofList (characters idLength x.toNat), r)

end RandomIds

end RecordRules

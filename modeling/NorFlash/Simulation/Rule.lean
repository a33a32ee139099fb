namespace NorFlash

structure Rule (α ε : Type) where
  hits : α → Bool
  /-- So many requests that it hits are passed over first. -/
  skip : Nat := 0
  /-- So often it can still take effect; without a number, always. -/
  times : Option Nat := none
  effect : ε

namespace Rule

variable {α ε : Type}

/-- Tries the rules in order and gives the effect, if one takes effect, with the rules as they are
afterwards. -/
def fire : List (Rule α ε) → α → Option ε × List (Rule α ε)
  | [], _ => (none, [])
  | r :: rs, a =>
    let pass (r : Rule α ε) :=
      let (e, rs) := fire rs a
      (e, r :: rs)
    if !r.hits a then pass r
    else match r.skip, r.times with
      | n + 1, _ => pass { r with skip := n }
      | 0, some 0 => pass r
      | 0, some (n + 1) => (some r.effect, { r with times := some n } :: rs)
      | 0, none => (some r.effect, r :: rs)

end Rule
end NorFlash

namespace NorFlash

inductive Strategy where
  /-- Only the blocks whose content changes are erased. -/
  | wipeIfChanges
  /-- Every block under the range is erased. -/
  | wipeByBiggestErases
  deriving DecidableEq, Repr

namespace Strategy

/-- In the order of listings. -/
def all : List Strategy := [wipeIfChanges, wipeByBiggestErases]

def default : Strategy := wipeByBiggestErases

def name : Strategy → String
  | wipeIfChanges => "wipe_if_changes"
  | wipeByBiggestErases => "wipe_by_biggest_erases"

def description : Strategy → String
  | wipeIfChanges =>
    "erase a sector/block/chip only if the new content is different: slower flashing, " ++
      "less flash wear"
  | wipeByBiggestErases =>
    "always erase the blocks under the written range, biggest first: faster flashing, " ++
      "more flash wear"

def ofName? (s : String) : Option Strategy := all.find? fun x => x.name == s

end Strategy
end NorFlash

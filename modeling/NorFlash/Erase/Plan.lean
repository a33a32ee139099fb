import NorFlash.Erase.Block

namespace NorFlash

structure Plan where
  blocks : List Block := []
  deriving DecidableEq, Repr

namespace Plan

/-- The first erased address; zero for a plan without blocks. -/
def start (p : Plan) : Nat := (p.blocks.head?.map Block.start).getD 0

/-- The end of the erased range; zero for a plan without blocks. -/
def stop (p : Plan) : Nat := (p.blocks.getLast?.map Block.stop).getD 0

def erasedBytes (p : Plan) : Nat := p.stop - p.start

end Plan
end NorFlash

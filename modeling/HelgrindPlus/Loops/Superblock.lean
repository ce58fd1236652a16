import HelgrindPlus.Lib.Graph

/-!
# The graph of superblocks

The structures of `hg_loops.c` that link the superblocks of the client for the
detection of loops.  A pointer to a superblock is the base address under which
`map_superblocks` has it.
-/

namespace HelgrindPlus
namespace Loops

variable {w : Nat}

/-- An extent of a superblock; the field `len` is a `UShort`. -/
structure BBlock (w : Nat) where
  base : BitVec w
  len : BitVec 16
  isFuncCall : Bool
  deriving DecidableEq, Repr

/-- The first address after the extent, to which a called function returns. -/
def BBlock.stop (bblock : BBlock w) : BitVec w :=
  bblock.base + bblock.len.setWidth w

inductive Mark where
  | unknown | analysed | visited
  deriving DecidableEq, Repr

inductive NextType where
  | unknown | direct | ret | indirect
  deriving DecidableEq, Repr

def maxBblocks : Nat := 3

/-- Both lists have at most `maxBblocks` entries.  The entries of `branches`
that are in use come first. -/
structure SB (w : Nat) where
  mark : Mark
  bblocks : List (BBlock w)
  nextType : NextType
  next : Option (BitVec w)
  branches : List (Option (BitVec w))
  returnHint : BitVec w
  lastJumpIaddr : BitVec w
  deriving DecidableEq, Repr

/-- The function `mk_SB`, without extents. -/
def mkSB : SB w :=
  ⟨.unknown, [], .unknown, none, List.replicate maxBblocks none, 0, 0⟩

/-- The map `map_superblocks`. -/
abbrev Superblocks (w : Nat) := BitVec w → Option (SB w)

/-- A branch, the successor, or the place to which a called function
returns. -/
def SB.Edge (sb : SB w) (dst : BitVec w) : Prop :=
  some dst ∈ sb.branches ∨ sb.next = some dst ∨
    ∃ bblock ∈ sb.bblocks, bblock.isFuncCall = true ∧ bblock.stop = dst

/-- An edge of a superblock that is in the map. -/
def Edge (sbs : Superblocks w) (base dst : BitVec w) : Prop :=
  ∃ sb, sbs base = some sb ∧ sb.Edge dst

/-- The address belongs to an extent of the superblock. -/
def SB.Covers (sb : SB w) (v : BitVec w) : Prop :=
  ∃ bblock ∈ sb.bblocks, bblock.base ≤ v ∧ v < bblock.stop

end Loops
end HelgrindPlus

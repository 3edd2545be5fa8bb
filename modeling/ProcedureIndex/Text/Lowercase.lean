import ProcedureIndex.Text.Basic
import ProcedureIndex.Text.CaseTable
import ProcedureIndex.Text.Classes

/-!
Small letters. Every character has its own small form except the large sigma,
whose form depends on whether it ends a word, so that lowering a text is not
lowering its characters one by one.
-/

namespace ProcedureIndex
namespace Text

def CaseRun.lower? (r : CaseRun) (n : Nat) : Option Nat :=
  if r.first ≤ n ∧ n ≤ r.last ∧ (n - r.first) % r.step = 0 then
    some (n + r.shift).toNat
  else
    none

/-- The small form of a character; the large dotted I has one of two characters. -/
def lowerChar (c : Char) : Text :=
  if c.toNat < 0x80 then [c.toLower]
  else if c.toNat = 0x130 then ['i', Char.ofNat 0x307]
  else [((caseRuns.findSome? fun r => r.lower? c.toNat).map Char.ofNat).getD c]

def meetsCased (cs : Text) : Bool :=
  (cs.dropWhile fun c => covers caseIgnorableRanges c.toNat).head?.any
    fun c => covers casedRanges c.toNat

/-- Lowers the rest of a text; `before` is what was already passed, nearest first. -/
def lowerAfter (before : Text) : Text → Text
  | [] => []
  | c :: cs =>
      (if c = 'Σ' then
        [if meetsCased before && !meetsCased cs then 'ς' else 'σ']
      else
        lowerChar c) ++ lowerAfter (c :: before) cs

def lower (cs : Text) : Text :=
  lowerAfter [] cs

end Text
end ProcedureIndex

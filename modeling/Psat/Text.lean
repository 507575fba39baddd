namespace Psat.Text
open List

-- Strings as the source uses them; lowering is the ASCII one.
def lower (text : String) : String := String.ofList (text.toList.map Char.toLower)

def startsWith (text start : String) : Bool := start.toList.isPrefixOf text.toList

theorem toLower_toLower (c : Char) : c.toLower.toLower = c.toLower := by
  delta Char.toLower
  grind

@[simp] theorem lower_lower (text : String) : lower (lower text) = lower text := by
  have pointwise : Char.toLower ∘ Char.toLower = Char.toLower := funext toLower_toLower
  simp [lower,pointwise]

-- `isinstance(x, str) and x.startswith("0x") and len(x) == 42`
def isAddress (text : String) : Bool := startsWith text "0x" && text.toList.length == 42

theorem isAddress_lower (address : isAddress text = true) : isAddress (lower text) = true := by
  simp only [isAddress,startsWith,lower,Bool.and_eq_true,beq_iff_eq,String.toList_ofList,length_map] at address ⊢
  refine ⟨?_,address.2⟩
  obtain ⟨rest,split⟩ := isPrefixOf_iff_prefix.mp address.1
  rw [ isPrefixOf_iff_prefix,← split,map_append]
  exact prefix_append _ _

def zeroAddress : String := "0x0000000000000000000000000000000000000000"

end Psat.Text

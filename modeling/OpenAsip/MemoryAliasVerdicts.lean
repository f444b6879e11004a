import OpenAsip.MemoryAddressTraces

namespace OpenAsip
set_option autoImplicit true

namespace AliasAnalysis
open AlignedBlocks

section
variable {a : Analyzer} {stored1 stored2 : Bool} {pop1 pop2 : ProgramOperation}
  {base1 base2 : Base} {i j : Int} {env : Environment} {address1 address2 : BitVec 32}
  {k1 k2 : Nat}

theorem Analyzer.analyze_eq (htrace1 : a.trace stored1 pop1 = some (base1, i))
    (htrace2 : a.trace stored2 pop2 = some (base2, j)) (hsame : base1.same base2 = true) :
    a.analyze stored1 stored2 pop1 pop2 =
      compareIndeces (BitVec.ofInt 32 i) (BitVec.ofInt 32 j)
        (BitVec.ofNat 32 (mausOfOperation pop1.operation))
        (BitVec.ofNat 32 (mausOfOperation pop2.operation)) := by
  simp only [analyze, htrace1, htrace2, hsame, if_true]

/-- The verdict on two addresses that are where the analyzer has traced them to. -/
theorem Analyzer.analyze_sound_iff_comparable (htrace1 : a.trace stored1 pop1 = some (base1, i))
    (htrace2 : a.trace stored2 pop2 = some (base2, j)) (hsame : base1.same base2 = true)
    (hvalue : base1.value env = base2.value env) (hk1 : k1 < 31) (hk2 : k2 < 31)
    (hmaus1 : mausOfOperation pop1.operation = 2 ^ k1 ∨ mausOfOperation pop1.operation = 0)
    (hmaus2 : mausOfOperation pop2.operation = 2 ^ k2 ∨ mausOfOperation pop2.operation = 0)
    (h1 : address1 = base1.value env + BitVec.ofInt 32 i)
    (h2 : address2 = base2.value env + BitVec.ofInt 32 j)
    (hdvd1 : 2 ^ k1 ∣ address1.toNat) (hdvd2 : 2 ^ k2 ∣ address2.toNat) :
    (a.analyze stored1 stored2 pop1 pop2).Sound address1 address2 k1 k2 ↔
      mausOfOperation pop1.operation = 0 ∨ mausOfOperation pop2.operation = 0 ∨
        Comparable (BitVec.ofInt 32 i) (BitVec.ofInt 32 j) k1 k2 := by
  rw [analyze_eq htrace1 htrace2 hsame]
  exact compareIndeces_sound_iff hk1 hk2 hmaus1 hmaus2 h1 (hvalue ▸ h2) hdvd1 hdvd2

/-- The offsets from a multiple of the larger size, such as no base at all, can be compared. -/
theorem Analyzer.analyze_sound_of_base (htrace1 : a.trace stored1 pop1 = some (base1, i))
    (htrace2 : a.trace stored2 pop2 = some (base2, j)) (hsame : base1.same base2 = true)
    (hvalue : base1.value env = base2.value env) (hk1 : k1 < 31) (hk2 : k2 < 31)
    (hmaus1 : mausOfOperation pop1.operation = 2 ^ k1 ∨ mausOfOperation pop1.operation = 0)
    (hmaus2 : mausOfOperation pop2.operation = 2 ^ k2 ∨ mausOfOperation pop2.operation = 0)
    (h1 : address1 = base1.value env + BitVec.ofInt 32 i)
    (h2 : address2 = base2.value env + BitVec.ofInt 32 j)
    (hdvd1 : 2 ^ k1 ∣ address1.toNat) (hdvd2 : 2 ^ k2 ∣ address2.toNat)
    (hbase : 2 ^ max k1 k2 ∣ (base1.value env).toNat) :
    (a.analyze stored1 stored2 pop1 pop2).Sound address1 address2 k1 k2 := by
  rw [analyze_sound_iff_comparable htrace1 htrace2 hsame hvalue hk1 hk2 hmaus1 hmaus2 h1 h2 hdvd1
    hdvd2]
  subst h1 h2
  rw [← hvalue] at hdvd2
  exact .inr (.inr (.of_base (by omega) (by omega) hbase hdvd1 hdvd2))

/-- An access of `size` units at an offset from the stack pointer, which an ADD computes. -/
def stackAccess (size : Nat) (offset : BitVec 32) : ProgramOperation where
  operation := ⟨[⟨true, size⟩], []⟩
  inputNode _ := [.sum 1 false (.stackPointer 2) (.immediate 3 offset)]

end

end AliasAnalysis

end OpenAsip

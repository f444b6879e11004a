import OpenAsip.MemoryAliasSoundness

namespace OpenAsip
set_option autoImplicit true

namespace AliasAnalysis

/-- The address that an operation accesses. -/
def ProgramOperation.address (env : Environment) (po : ProgramOperation) : Option (BitVec 32) :=
  match po.operation.inputs.findIdx? Operand.isAddress with
  | some i => (onlyMove (po.inputNode (i + 1))).map (MoveNode.value env)
  | none => do
    let (isSub, operand1, operand2, _) ← addressOperation po
    let mn1 ← onlyMove (po.inputNode operand1)
    let mn2 ← onlyMove (po.inputNode operand2)
    some (sumOf isSub (mn1.value env) (mn2.value env))

variable {env : Environment}

theorem ofInt_increment (isSub : Bool) (value : BitVec 32) :
    BitVec.ofInt 32 (increment isSub value) = if isSub then -value else value := by
  cases isSub with
  | true => simp [increment, BitVec.ofInt_neg]
  | false => simp [increment]

theorem findIncrement_value (h : findIncrement isSub input1 input2 = some (left, value)) :
    sumOf isSub (input1.value env) (input2.value env) =
      (if left then input1 else input2).value env + BitVec.ofInt 32 (increment isSub value) := by
  rw [ofInt_increment]
  unfold findIncrement at h
  split at h
  · split at h
    · cases h
      cases isSub with
      | true => simp [sumOf, MoveNode.value, BitVec.sub_eq_add_neg]
      | false => simp [sumOf, MoveNode.value]
    · cases h
  · split at h
    · next hgpr =>
      cases h
      cases isSub with
      | true => simp at hgpr
      | false => simp [sumOf, MoveNode.value, BitVec.add_comm]
    · cases h
  · cases h

/-- What the loop adds to the offset is what it leaves behind of the value. -/
theorem stackOffset_value (h : stackOffset mn offset = some offset') :
    mn.value env + BitVec.ofInt 32 offset = env.stackPointer + BitVec.ofInt 32 offset' := by
  induction mn generalizing offset with
  | stackPointer id =>
    cases h
    rfl
  | copy id writer ih => exact ih h
  | sum id isSub input1 input2 ih1 ih2 =>
    rw [stackOffset] at h
    split at h
    · next value hinc =>
      rw [MoveNode.value, findIncrement_value hinc, BitVec.add_assoc, ← BitVec.ofInt_add,
        Int.add_comm]
      exact ih1 h
    · next value hinc =>
      rw [MoveNode.value, findIncrement_value hinc, BitVec.add_assoc, ← BitVec.ofInt_add,
        Int.add_comm]
      exact ih2 h
    · cases h
  | register id => cases h
  | result id readers => cases h
  | immediate id value => cases h

theorem constantAddress_value (h : constantAddress mn addr = some addr') :
    mn.value env + BitVec.ofInt 32 addr = BitVec.ofInt 32 addr' := by
  induction mn generalizing addr with
  | immediate id value =>
    cases h
    rw [MoveNode.value, BitVec.ofInt_add, BitVec.add_comm]
    simp
  | copy id writer ih => exact ih h
  | sum id isSub input1 input2 ih1 ih2 =>
    rw [constantAddress] at h
    split at h
    · next value hinc =>
      rw [MoveNode.value, findIncrement_value hinc, BitVec.add_assoc, ← BitVec.ofInt_add,
        Int.add_comm]
      exact ih1 h
    · next value hinc =>
      rw [MoveNode.value, findIncrement_value hinc, BitVec.add_assoc, ← BitVec.ofInt_add,
        Int.add_comm]
      exact ih2 h
    · cases h
  | register id => cases h
  | result id readers => cases h
  | stackPointer id => cases h

@[simp]
theorem value_onlyRegisterRawAncestor (mn : MoveNode) :
    (onlyRegisterRawAncestor mn).value env = mn.value env := by
  induction mn with
  | copy id writer ih => exact ih
  | _ => rfl

/-- The address is a constant less something. The analyzers, which have the two operands in the order
of a set, cannot tell. -/
def ProgramOperation.SubtractsFromConstant (po : ProgramOperation) : Prop :=
  addressOperandMove po = none ∧
    ∃ operand1 operand2 reversed mn,
      addressOperation po = some (true, operand1, operand2, reversed) ∧
        onlyMove (po.inputNode operand1) = some mn ∧ mn.isImmediate = true

/-- The parts of an address are a constant and a move of none, in one order or the other. -/
def HasParts (po : ProgramOperation) (isSub : Bool) (mn : MoveNode) (value : BitVec 32) : Prop :=
  mn.isImmediate = false ∧
    ∃ id, addressParts po = some (isSub, .immediate id value, mn) ∨
      addressParts po = some (isSub, mn, .immediate id value)

section
variable {a : Analyzer} {stored : Bool} {po : ProgramOperation} {mn mn1 mn2 : MoveNode}
  {id : Nat} {base : Base} {i : Int}

theorem address_cases (h : po.address env = some address) :
    (∃ mn, addressOperandMove po = some mn ∧ address = mn.value env) ∨
      ∃ isSub operand1 operand2 reversed mn1 mn2, addressOperandMove po = none ∧
        addressOperation po = some (isSub, operand1, operand2, reversed) ∧
        onlyMove (po.inputNode operand1) = some mn1 ∧
        onlyMove (po.inputNode operand2) = some mn2 ∧
        address = sumOf isSub (mn1.value env) (mn2.value env) := by
  unfold ProgramOperation.address at h
  cases hfind : po.operation.inputs.findIdx? Operand.isAddress with
  | some i =>
    simp only [hfind, Option.map_eq_some_iff] at h
    obtain ⟨mn, hmn, rfl⟩ := h
    exact .inl ⟨mn, by simp [addressOperandMove, hfind, hmn], rfl⟩
  | none =>
    simp only [hfind, Option.bind_eq_bind, Option.bind_eq_some_iff, Option.some.injEq] at h
    obtain ⟨⟨isSub, operand1, operand2, reversed⟩, hop, mn1, hmn1, mn2, hmn2, rfl⟩ := h
    exact .inr ⟨isSub, operand1, operand2, reversed, mn1, mn2,
      by simp [addressOperandMove, hfind], hop, hmn1, hmn2, rfl⟩

theorem addressParts_eq (hop : addressOperation po = some (isSub, operand1, operand2, reversed))
    (h1 : onlyMove (po.inputNode operand1) = some mn1)
    (h2 : onlyMove (po.inputNode operand2) = some mn2) :
    addressParts po = some (if reversed then (isSub, mn2, mn1) else (isSub, mn1, mn2)) := by
  cases reversed with
  | true => simp [addressParts, findTwoPartAddressOperands, hop, h1, h2]
  | false => simp [addressParts, findTwoPartAddressOperands, hop, h1, h2]

/-- The sum of the parts is the variable with the increment, or that with the sign changed. -/
theorem sumOf_parts (hmn : mn.isImmediate = false)
    (h : mn1 = .immediate id value ∧ mn2 = mn ∨ mn1 = mn ∧ mn2 = .immediate id value) :
    sumOf isSub (mn1.value env) (mn2.value env) =
      if isSub ∧ mn1.isImmediate then
        -(mn.value env + BitVec.ofInt 32 (increment isSub value))
      else mn.value env + BitVec.ofInt 32 (increment isSub value) := by
  rw [ofInt_increment]
  rcases h with ⟨rfl, rfl⟩ | ⟨rfl, rfl⟩
  · cases isSub with
    | true => simp [sumOf, MoveNode.value, MoveNode.isImmediate]; grind
    | false => simp [sumOf, MoveNode.value, BitVec.add_comm]
  · cases isSub with
    | true => simp [sumOf, MoveNode.value, hmn, BitVec.sub_eq_add_neg]
    | false => simp [sumOf, MoveNode.value]

theorem eq_iff_of_eq_neg {x y : BitVec 32} (h : x = -y) : x = y ↔ x + x = 0 := by
  grind

theorem HasParts.address_iff (hparts : HasParts po isSub mn value)
    (hdirect : addressOperandMove po = none) (h : po.address env = some address) :
    address = mn.value env + BitVec.ofInt 32 (increment isSub value) ↔
      ¬ po.SubtractsFromConstant ∨ address + address = 0 := by
  obtain ⟨hmn, id, hparts⟩ := hparts
  rcases address_cases h with
    ⟨mn', hmn', _⟩ | ⟨isSub', operand1, operand2, reversed, mn1, mn2, _, hop, h1, h2, haddress⟩
  · rw [hdirect] at hmn'
    cases hmn'
  · rw [addressParts_eq hop h1 h2] at hparts
    have hsub : isSub' = isSub := by
      rcases hparts with h | h <;> cases reversed <;> simp at h <;> exact h.1
    subst hsub
    have hmoves :
        mn1 = .immediate id value ∧ mn2 = mn ∨ mn1 = mn ∧ mn2 = .immediate id value := by
      rcases hparts with h | h <;> cases reversed <;> simp at h <;> simp [h]
    have hconstant : po.SubtractsFromConstant ↔ isSub' ∧ mn1.isImmediate := by
      constructor
      · rintro ⟨-, operand1', operand2', reversed', mn', hop', hmn', himm⟩
        cases hop.symm.trans hop'
        cases h1.symm.trans hmn'
        exact ⟨rfl, himm⟩
      · rintro ⟨hsub, himm⟩
        exact ⟨hdirect, operand1, operand2, reversed, mn1, hsub ▸ hop, h1, himm⟩
    rw [sumOf_parts hmn hmoves] at haddress
    rw [hconstant]
    split at haddress
    · next hsub =>
      rw [eq_iff_of_eq_neg haddress]
      simp [hsub]
    · next hsub => simp [hsub, haddress]

theorem stackOffset_isImmediate (h : stackOffset mn offset = some offset') :
    mn.isImmediate = false := by
  cases mn with
  | immediate id value => cases h
  | _ => rfl

theorem isImmediate_of_isGPR (h : mn.isGPR = true) : mn.isImmediate = false := by
  cases mn with
  | immediate id value => cases h
  | _ => rfl

theorem getStackOffset_parts (h : getStackOffset po = some offset)
    (hdirect : addressOperandMove po = none) :
    ∃ isSub mn value, HasParts po isSub mn value ∧
      stackOffset mn (increment isSub value) = some offset := by
  simp only [getStackOffset, hdirect] at h
  split at h
  · cases h
  · next isSub id value mn _ hparts =>
    exact ⟨isSub, mn, value, ⟨stackOffset_isImmediate h, id, .inl hparts⟩, h⟩
  · next isSub mn id value _ hparts =>
    exact ⟨isSub, mn, value, ⟨stackOffset_isImmediate h, id, .inr hparts⟩, h⟩
  · cases h

theorem offsetData_parts (h : offsetData stored po = some (mn', offset))
    (hdirect : addressOperandMove po = none) :
    ∃ isSub mn value, HasParts po isSub mn value ∧ mn' = onlyRegisterRawAncestor mn ∧
      offset = increment isSub value := by
  simp only [offsetData, hdirect] at h
  split at h
  · next isSub addr1 addr2 hparts =>
    split at h
    · next id value =>
      split at h
      · next hgpr =>
        cases h
        exact ⟨isSub, addr2, value, ⟨isImmediate_of_isGPR hgpr, id, .inl hparts⟩, rfl, rfl⟩
      · cases h
    · next id value _ =>
      split at h
      · next hgpr =>
        cases h
        exact ⟨isSub, addr1, value, ⟨isImmediate_of_isGPR hgpr, id, .inr hparts⟩, rfl, rfl⟩
      · cases h
    · cases h
  · cases h

/-- An address that an operand has is at the offset from the base. -/
theorem Analyzer.trace_direct (htrace : a.trace stored po = some (base, i))
    (hmn : addressOperandMove po = some mn) :
    mn.value env = base.value env + BitVec.ofInt 32 i := by
  cases a with
  | constant =>
    simp only [trace, getConstantAddress, hmn, Option.map_eq_some_iff, Prod.mk.injEq] at htrace
    obtain ⟨addr, haddr, rfl, rfl⟩ := htrace
    have hvalue : mn.value env + BitVec.ofInt 32 0 = BitVec.ofInt 32 addr :=
      constantAddress_value haddr
    simpa [Base.value] using hvalue
  | stack =>
    simp only [trace, getStackOffset, hmn] at htrace
    split at htrace
    · next addr haddr =>
      split at htrace
      · cases htrace
      · cases htrace
        have hvalue : mn.value env + BitVec.ofInt 32 0 = env.stackPointer + BitVec.ofInt 32 i :=
          stackOffset_value haddr
        simpa [Base.value] using hvalue
    · cases htrace
  | offset =>
    simp only [trace, offsetData, hmn, Option.map_eq_some_iff, Prod.mk.injEq] at htrace
    obtain ⟨⟨mn', offset'⟩, hdata, rfl, rfl⟩ := htrace
    have hvalue : (onlyRegisterRawAncestor mn).value env = mn.value env :=
      value_onlyRegisterRawAncestor mn
    split at hdata
    · next id isSub source id' value hancestor =>
      split at hdata
      · cases hdata
        rw [hancestor] at hvalue
        rw [← hvalue, ofInt_increment]
        cases isSub with
        | true => simp [Base.value, MoveNode.value, sumOf, BitVec.sub_eq_add_neg]
        | false => simp [Base.value, MoveNode.value, sumOf]
      · cases hdata
    · cases hdata
    · next id readers hancestor =>
      split at hdata
      · cases hdata
        simp [Base.value, ← hvalue, hancestor]
      · cases hdata
    · split at hdata
      · cases hdata
        simp [Base.value]
      · cases hdata

/-- An address is at the offset from the base unless it is a constant less something. -/
theorem Analyzer.trace_address_iff (htrace : a.trace stored po = some (base, i))
    (haddress : po.address env = some address) :
    address = base.value env + BitVec.ofInt 32 i ↔
      ¬ po.SubtractsFromConstant ∨ address + address = 0 := by
  cases hmn : addressOperandMove po with
  | some mn =>
    have hforward : ¬ po.SubtractsFromConstant := by
      rintro ⟨hnone, _⟩
      cases hmn.symm.trans hnone
    rcases address_cases haddress with ⟨mn', hmn', rfl⟩ | ⟨_, _, _, _, _, _, hnone, _⟩
    · cases hmn.symm.trans hmn'
      simp [hforward, trace_direct htrace hmn]
    · cases hmn.symm.trans hnone
  | none =>
    cases a with
    | constant => simp [trace, getConstantAddress, hmn] at htrace
    | stack =>
      rw [trace] at htrace
      split at htrace
      · next addr haddr =>
        obtain ⟨isSub, mn, value, hparts, hoffset⟩ := getStackOffset_parts haddr hmn
        rw [← hparts.address_iff hmn haddress]
        split at htrace
        · cases htrace
        · cases htrace
          rw [stackOffset_value hoffset, Base.value]
      · cases htrace
    | offset =>
      rw [trace, Option.map_eq_some_iff] at htrace
      obtain ⟨⟨mn', offset'⟩, hdata, hpair⟩ := htrace
      cases hpair
      obtain ⟨isSub, mn, value, hparts, rfl, rfl⟩ := offsetData_parts hdata hmn
      rw [← hparts.address_iff hmn haddress, Base.value, value_onlyRegisterRawAncestor]

end

end AliasAnalysis

end OpenAsip

import OpenAsip.FunctionUnitTexts

namespace OpenAsip
set_option autoImplicit true

namespace MOM
open ConflictDetection (isValidComponentName)
open ConflictDetection.BoundFunctionUnit (not_mem_of_isValidComponentName not_mem_repr)
open JoinedTexts

namespace HWOperation
variable {op : HWOperation} {operand : Int} {port : String}

theorem port_eq_some (h : (op.operandBinding.map Prod.fst).Nodup) :
    op.port operand = some port ↔ (operand, port) ∈ op.operandBinding := by
  rw [HWOperation.port, Option.map_eq_some_iff]
  constructor
  · rintro ⟨binding, hfind, rfl⟩
    obtain ⟨hmem, rfl⟩ := (find?_key_eq_some h).1 hfind
    exact hmem
  · intro hmem
    exact ⟨(operand, port), (find?_key_eq_some h).2 ⟨hmem, rfl⟩, rfl⟩

theorem io_eq_some (h : (op.operandBinding.map Prod.snd).Nodup) :
    op.io port = some operand ↔ (operand, port) ∈ op.operandBinding := by
  rw [HWOperation.io, Option.map_eq_some_iff]
  constructor
  · rintro ⟨binding, hfind, rfl⟩
    obtain ⟨hmem, rfl⟩ := (find?_key_eq_some h).1 hfind
    exact hmem
  · intro hmem
    exact ⟨(operand, port), (find?_key_eq_some h).2 ⟨hmem, rfl⟩, rfl⟩

end HWOperation

section Words
variable {name name' : String} {operand operand' : Int}

theorem repr_eq (h : 1 ≤ operand) : operand.repr = operand.toNat.repr := by
  obtain ⟨n, rfl⟩ := Int.eq_ofNat_of_zero_le (show 0 ≤ operand by omega)
  rfl

/-- A binding of an operation. -/
theorem binding_chars (h : 1 ≤ operand) : (name ++ ("." ++ operand.repr)).toList =
    name.toList ++ '.' :: operand.toNat.repr.toList := by
  have hdot : ".".toList = ['.'] := rfl
  rw [String.toList_append, String.toList_append, hdot, List.singleton_append, repr_eq h]

theorem binding_ne_nil (h : 1 ≤ operand) : (name ++ ("." ++ operand.repr)).toList ≠ [] := by
  rw [binding_chars h]
  exact List.append_ne_nil_of_right_ne_nil _ (List.cons_ne_nil _ _)

theorem not_mem_binding {c : Char} (hname : isValidComponentName name = true) (h : 1 ≤ operand)
    (halpha : c.isAlpha = false) (hdigit : c.isDigit = false)
    (hother : c ≠ '_' ∧ c ≠ ':' ∧ c ≠ '.') : c ∉ (name ++ ("." ++ operand.repr)).toList := by
  rw [binding_chars h, List.mem_append, List.mem_cons]
  rintro (hc | hc | hc)
  · exact not_mem_of_isValidComponentName hname halpha hdigit ⟨hother.1, hother.2.1⟩ hc
  · exact hother.2.2 hc
  · exact not_mem_repr hdigit _ hc

theorem binding_inj (hname : isValidComponentName name = true)
    (hname' : isValidComponentName name' = true) (h : 1 ≤ operand) (h' : 1 ≤ operand')
    (heq : name ++ ("." ++ operand.repr) = name' ++ ("." ++ operand'.repr)) :
    name = name' ∧ operand = operand' := by
  have hchars := congrArg String.toList heq
  rw [binding_chars h, binding_chars h'] at hchars
  obtain ⟨hl, hr⟩ := append_cons_inj
    (not_mem_of_isValidComponentName hname rfl rfl (by decide))
    (not_mem_of_isValidComponentName hname' rfl rfl (by decide)) hchars
  have hnat := Nat.repr_injective (String.toList_injective hr)
  exact ⟨String.toList_injective hl, by omega⟩

end Words

namespace MachineUnit
variable {f g : MachineUnit} {op op' : HWOperation}

theorem nodup_operands (f : MachineUnit) (hop : op ∈ f.operations) :
    (op.operandBinding.map Prod.fst).Nodup :=
  (f.sorted_operands op hop).imp fun h => ne_of_lt h

theorem port_eq_some (hop : op ∈ f.operations) :
    op.port operand = some port ↔ (operand, port) ∈ op.operandBinding :=
  HWOperation.port_eq_some (f.nodup_operands hop)

theorem io_eq_some (hop : op ∈ f.operations) :
    op.io port = some operand ↔ (operand, port) ∈ op.operandBinding :=
  HWOperation.io_eq_some (f.nodup_ports op hop)

theorem op_ext (hop : op ∈ f.operations) (hop' : op' ∈ f.operations) (h : op.name = op'.name) :
    op = op' :=
  List.inj_on_of_nodup_map f.nodup_names hop hop' h

theorem port_ext {p q : FUPort} (hp : p ∈ f.ports) (hq : q ∈ f.ports) (h : p.name = q.name) :
    p = q :=
  List.inj_on_of_nodup_map f.nodup_portNames hp hq h

theorem operandPort_eq_some {p : FUPort} (hop : op ∈ f.operations) :
    f.operandPort op operand = some p ↔
      p ∈ f.ports ∧ (operand, p.name) ∈ op.operandBinding := by
  rw [FunctionUnit.operandPort, Option.bind_eq_bind, Option.bind_eq_some_iff]
  constructor
  · rintro ⟨name, hname, hfind⟩
    obtain ⟨hp, rfl⟩ := mem_of_find?_key hfind
    exact ⟨hp, (port_eq_some hop).1 hname⟩
  · rintro ⟨hp, hbinding⟩
    exact ⟨p.name, (port_eq_some hop).2 hbinding, find?_of_mem f.nodup_portNames hp⟩

theorem mem_bindings : binding ∈ f.bindings port ↔ ∃ op ∈ f.operations, ∃ operand,
    (operand, port) ∈ op.operandBinding ∧ op.name ++ ("." ++ operand.repr) = binding := by
  simp only [FunctionUnit.bindings, List.mem_toFinset, List.mem_filterMap, Option.map_eq_some_iff]
  apply exists_congr
  intro op
  apply and_congr_right
  intro hop
  apply exists_congr
  intro operand
  rw [io_eq_some hop]

theorem not_mem_bindings {c : Char} (hb : binding ∈ f.bindings port) (halpha : c.isAlpha = false)
    (hdigit : c.isDigit = false) (hother : c ≠ '_' ∧ c ≠ ':' ∧ c ≠ '.') : c ∉ binding.toList := by
  obtain ⟨op, hop, operand, hmem, rfl⟩ := mem_bindings.1 hb
  exact not_mem_binding (f.valid_names op hop) (f.operand_pos op hop _ hmem) halpha hdigit hother

theorem bindings_ne_nil (hb : binding ∈ f.bindings port) : binding.toList ≠ [] := by
  obtain ⟨op, hop, operand, hmem, rfl⟩ := mem_bindings.1 hb
  exact binding_ne_nil (f.operand_pos op hop _ hmem)

/-- The operation and the operand can be told from a binding. -/
theorem mem_bindings_iff (hop : op ∈ f.operations) (h : 1 ≤ operand) :
    op.name ++ ("." ++ operand.repr) ∈ f.bindings port ↔
      (operand, port) ∈ op.operandBinding := by
  constructor
  · intro hb
    obtain ⟨op', hop', operand', hmem, heq⟩ := mem_bindings.1 hb
    obtain ⟨hname, rfl⟩ := binding_inj (f.valid_names op' hop') (f.valid_names op hop)
      (f.operand_pos op' hop' _ hmem) h heq
    rw [← op_ext hop' hop hname]
    exact hmem
  · intro hmem
    exact mem_bindings.2 ⟨op, hop, operand, hmem, rfl⟩

/-- The bindings can be told from the binding string. -/
theorem bindings_eq (h : f.updatedBindingString p = g.updatedBindingString q) :
    f.bindings p = g.bindings q := by
  apply joined_inj (fun _ => bindings_ne_nil) (fun _ => bindings_ne_nil) ?_ h
  intro x hx y hy hxy
  rw [← List.append_nil x.toList, first_append_of_notMem
    (not_mem_bindings hx rfl rfl (by decide)), ← List.append_nil y.toList,
    first_append_of_notMem (not_mem_bindings hy rfl rfl (by decide))] at hxy
  exact String.toList_injective (List.append_cancel_right hxy)

/-- A binding is one of one port. -/
theorem bindings_port_ext {p q : FUPort} (hp : p ∈ f.ports) (hq : q ∈ f.ports)
    (hb : b ∈ f.bindings p.name) (hb' : b ∈ f.bindings q.name) : p = q := by
  obtain ⟨op, hop, operand, hmem, rfl⟩ := mem_bindings.1 hb
  rw [mem_bindings_iff hop (f.operand_pos op hop _ hmem)] at hb'
  exact port_ext hp hq (congrArg Prod.snd
    (List.inj_on_of_nodup_map (f.nodup_operands hop) hmem hb' rfl))

end MachineUnit

end MOM

end OpenAsip

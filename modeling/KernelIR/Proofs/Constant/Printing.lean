import KernelIR.Proofs.Constant.Width
import KernelIR.Proofs.Description.Declaration
import KernelIR.Proofs.Type.RoundTrip
import Mathlib.Data.List.Basic

namespace KernelIR

open Description

namespace IntConst

/-- The constant of the same type that keeps the signed reading as its word. -/
def normal (c : IntConst) : IntConst := ⟨c.bits, BitVec.ofInt 64 c.signed⟩

theorem exists_toInt_eq_signed (c : IntConst) : ∃ w : BitVec 64, w.toInt = c.signed := by
  rw [signed]
  split
  · exact ⟨_, rfl⟩
  · exact ⟨_, rfl⟩

theorem signed_fits (c : IntConst) : -2 ^ 63 ≤ c.signed ∧ c.signed < 2 ^ 63 := by
  obtain ⟨w, hw⟩ := c.exists_toInt_eq_signed
  have hlow := w.le_toInt
  have hhigh := w.toInt_lt
  omega

theorem stored_normal (c : IntConst) : c.normal.stored = c.signed := by
  obtain ⟨w, hw⟩ := c.exists_toInt_eq_signed
  rw [stored, normal, ← hw, BitVec.ofInt_toInt]

variable {c : IntConst} {n : Nat}

section Readings

variable (hbits : c.bits = n) (hpos : 0 < n) (hle : n ≤ 64)

include hbits hpos hle

theorem signed_normal : c.normal.signed = c.signed := by
  rw [signed_eq_bmod (c := c.normal) hbits hpos hle, stored_normal, signed_eq_bmod hbits hpos hle,
    Int.bmod_bmod]

theorem unsigned_normal : c.normal.unsigned = c.unsigned := by
  have hcast : (c.normal.unsigned : Int) = c.unsigned := by
    rw [unsigned_eq_emod (c := c.normal) hbits hle, stored_normal, signed_eq_bmod hbits hpos hle,
      Int.bmod_emod, unsigned_eq_emod hbits hle]
  exact_mod_cast hcast

end Readings

theorem toList_typed (scope : Scope) (c : IntConst) :
    ((Value.int c).typed scope).toList = (Ty.int c.bits).text.toList ++
    ' ' :: Number.decimalChars c.signed := by
  simp only [Value.typed, Value.ty, Value.ident, Number.decimal, String.toList_append,
    String.toList_ofList, List.append_assoc]
  rfl

/-- What is written for a constant is read as one that keeps the number written. -/
theorem readOperand_typed (hpos : 1 ≤ c.bits) (hle : c.bits ≤ 64) (m : Module)
    (locals : List (String × Value))
    (scope : Scope) : readOperand m locals ((Value.int c).typed scope) = .ok (.int c.normal) := by
  obtain ⟨hlow, hhigh⟩ := c.signed_fits
  have hdigits := Text.plain_decimalChars c.signed
  have htrim : Text.trim ((Value.int c).typed scope).toList =
      (Ty.int c.bits).text.toList ++ ' ' :: Number.decimalChars c.signed := by
    rw [toList_typed]
    apply Text.trim_eq_self
    · rw [Ty.toList_text_int]
      simp
      decide
    · intro d hd
      rw [List.getLast?_append_of_ne_nil _ (List.cons_ne_nil _ _),
        List.getLast?_cons_of_ne_nil (Number.decimalChars_ne_nil _)] at hd
      exact (hdigits d (List.mem_of_getLast? hd)).1
  have hspells :
      Spells ((Ty.int c.bits).text.toList ++ ' ' :: Number.decimalChars c.signed) (.int c.normal) :=
    .int (Ty.read_text_int hpos hle) hdigits.space_not_mem
      (Number.readInteger_iff.mp (Number.readInteger_decimalChars hlow hhigh))
  rw [readOperand, htrim, ← readConstant_eq_ok.mpr hspells, Ty.toList_text_int]
  rfl

end IntConst

namespace Ty

theorem bits_of_readSimple {cs : List Char} {bits : Int} (h : readSimple cs = .ok (.int bits)) :
    1 ≤ bits ∧ bits ≤ 64 := by
  simp only [readSimple] at h
  split_ifs at h
  · cases h
  · cases h
  · cases h
  · cases h
  · split at h
    · cases h
    · next name =>
      rw [named] at h
      split at h
      · cases h
      · cases h
    · split at h
      · split at h
        · next hrange =>
          cases h
          rw [Bool.and_eq_true, decide_eq_true_eq, decide_eq_true_eq] at hrange
          exact hrange
        · cases h
      · cases h
    · cases h

/-- The width of an integer type that is read is from 1 to 64. -/
theorem bits_of_read {src : List Char} {bits : Int} (h : read src = .ok (.int bits)) :
    1 ≤ bits ∧ bits ≤ 64 := by
  rw [read] at h
  split at h
  · cases h
  · split at h
    · split at h
      · cases h
      · split at h
        · cases h
        · cases h
    · exact bits_of_readSimple h

end Ty

/-- Names stand for parameters and results, never for constants. -/
theorem FuncDraft.Follows.isConstant_of_mem {s : FuncSpec} {d : FuncDraft} (h : d.Follows s)
    {e : String × Value} (he : e ∈ d.locals) : e.2.isConstant = false := by
  rw [h.locals, List.mem_append, List.mem_reverse, List.mem_filterMap] at he
  rcases he with ⟨draft, _, hentry⟩ | hparam
  · rw [Draft.entry?, Option.ite_none_left_eq_some, Option.some_inj] at hentry
    rw [← hentry.2]
    rfl
  · rw [Func.paramEntries, List.mem_reverse, List.mem_map] at hparam
    obtain ⟨p, _, rfl⟩ := hparam
    rfl

namespace Description

/-- An operand that is read as a constant is the text of one. -/
theorem spells_of_readOperand {m : Module} {locals : List (String × Value)} {text : String}
    {c : IntConst} (hlocals : ∀ e ∈ locals, e.2.isConstant = false)
    (h : readOperand m locals text = .ok (.int c)) :
    Spells (Text.trim text.toList) (.int c) := by
  rw [readOperand] at h
  split at h
  · next name _ =>
    split at h
    · next v hlookup =>
      cases h
      obtain ⟨before, after, hsplit, _⟩ := List.lookup_eq_some_iff.mp hlookup
      have hmem : (String.ofList name, Value.int c) ∈ locals := by simp [hsplit]
      exact absurd (hlocals _ hmem) (by simp [Value.isConstant])
    · cases h
  · next name _ =>
    rw [readSymbol] at h
    split at h
    · cases h
    · split at h
      · cases h
      · cases h
  · exact readConstant_eq_ok.mp h

theorem bits_of_readOperand {m : Module} {locals : List (String × Value)} {text : String}
    {c : IntConst} (hlocals : ∀ e ∈ locals, e.2.isConstant = false)
    (h : readOperand m locals text = .ok (.int c)) :
    1 ≤ c.bits ∧ c.bits ≤ 64 := by
  have hspells := spells_of_readOperand hlocals h
  generalize Text.trim text.toList = cs at hspells
  cases hspells with
  | int htype _ _ => exact Ty.bits_of_read htype

/-- An operand that is read as an integer constant of any literal is written as a text that is read
as a constant of the same type and value, and that is written and read the same from then on. -/
theorem constant_survives_printing {m₀ m : Module} {a : Nat} {s : FuncSpec} {d : FuncDraft}
    (hd : declareFunc m₀ a s = .ok d) {text : String} {c : IntConst}
    (h : readOperand m d.locals text = .ok (.int c)) :
    ∃ c' : IntConst, 1 ≤ c.bits ∧ c.bits ≤ 64 ∧ c'.bits = c.bits ∧ c'.signed = c.signed ∧
      c'.unsigned = c.unsigned ∧ ∀ scope, (Value.int c').typed scope = (Value.int c).typed scope ∧
        ∀ m' locals', readOperand m' locals' ((Value.int c).typed scope) = .ok (.int c') ∧
          readOperand m' locals' ((Value.int c').typed scope) = .ok (.int c') := by
  have hlocals := fun e => (declareFunc_ok hd).1.isConstant_of_mem (e := e)
  obtain ⟨hpos, hle⟩ := bits_of_readOperand hlocals h
  obtain ⟨n, hbits⟩ := Int.eq_ofNat_of_zero_le (Int.le_trans Int.one_nonneg hpos)
  have hsigned := IntConst.signed_normal hbits (by omega) (by omega)
  have hunsigned := IntConst.unsigned_normal hbits (by omega) (by omega)
  have htext : ∀ scope, (Value.int c.normal).typed scope = (Value.int c).typed scope := by
    intro scope
    simp only [Value.typed, Value.ty, Value.ident, hsigned]
    rfl
  refine ⟨c.normal, hpos, hle, rfl, hsigned, hunsigned,
    fun scope => ⟨htext scope, fun m' locals' => ?_⟩⟩
  have hread := IntConst.readOperand_typed hpos hle m' locals' scope
  rw [htext]
  exact ⟨hread, hread⟩

/-- The literal of this constant does not fit its type. The word that is kept for it is not the one
that is kept for what is written, but both stand for the same number. -/
theorem overflow_survives_printing :
    ∃ (d : FuncDraft) (c c' : IntConst), declareFunc { name := "" } 0 {} = .ok d ∧
    readOperand { name := "" } d.locals " i8 0x1FF" = .ok (.int c) ∧ c.stored = 511 ∧
      c'.stored = -1 ∧ c'.signed = c.signed ∧ c'.unsigned = c.unsigned ∧
        ∀ scope, (Value.int c).typed scope = "i8 -1" ∧
          readOperand { name := "" } d.locals ((Value.int c).typed scope) = .ok (.int c') := by
  have hd : declareFunc { name := "" } 0 {} = .ok ⟨Func.declare 0 "" .void [], [], []⟩ := rfl
  have hspells :
      Spells ((Ty.int 8).text.toList ++ ' ' :: "0x1FF".toList) (.int ⟨8, BitVec.ofInt 64 511⟩) :=
    .int (Ty.read_text_int (by decide) (by decide)) (by decide)
      (Number.readInteger_iff.mp (by decide))
  have htrim : Text.trim " i8 0x1FF".toList = (Ty.int 8).text.toList ++ ' ' :: "0x1FF".toList := by
    decide +kernel
  have h : readOperand { name := "" } [] " i8 0x1FF" = .ok (.int ⟨8, BitVec.ofInt 64 511⟩) := by
    rw [readOperand, htrim, ← readConstant_eq_ok.mpr hspells, Ty.toList_text_int]
    rfl
  obtain ⟨c', hpos, hle, _, hsigned, hunsigned, hall⟩ := constant_survives_printing hd h
  refine ⟨_, _, c', hd, h, by decide, ?_, hsigned, hunsigned,
    fun scope => ⟨?_, ((hall scope).2 _ _).1⟩⟩
  · have hread := ((hall { name := "" : Module }.scope).2 { name := "" } []).1
    rw [IntConst.readOperand_typed hpos hle, Except.ok.injEq, Value.int.injEq] at hread
    rw [← hread, IntConst.stored_normal]
    decide
  · simp only [Value.typed, Value.ty, Value.ident]
    decide +kernel

end Description

end KernelIR

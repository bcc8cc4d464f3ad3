/-
# Records in specifications

`type_size`, `type_wrap` and `type_unwrap` of `tool/klint/verif/spec_prefix.py`. A record of
a specification becomes a map key by concatenating its fields, in the order of the record's
own dictionary, the first one lowest, and a key becomes a record by cutting it at the offsets
that the fields have in the type. So a record survives the trip when the two orders make the
same number of its fields (`roundTrip_iff`), and all records of one order do when it is the
order of the type (`records_trip_iff`).
-/
import Klint.Lib.MixedRadix
import Klint.Tool.Claripy
import Mathlib.Tactic.Ring

namespace Klint
namespace Tool
namespace SpecTypes

/-! ### Types and values -/

/-- The type of a field, or of a value that is no record: the name of a C type, or a number of bits. -/
inductive ScalarType
  | named (name : String)
  | bits (n : ℕ)
deriving DecidableEq, Repr

/-- A type: a flat record is a dictionary of scalar types. -/
inductive SpecType
  | scalar (type : ScalarType)
  | record (fields : List (String × ScalarType))
deriving DecidableEq, Repr

/-- A value: a bit vector, or a dictionary of bit vectors. -/
inductive SpecValue
  | bv (e : BV)
  | dict (fields : List (String × BV))

section

variable (sizes : String → ℕ)

def ScalarType.size : ScalarType → ℕ
  | .named name => sizes name
  | .bits n => n

/-- `type_size` -/
def typeSize : SpecType → ℕ
  | .scalar type => type.size sizes
  | .record fields => (fields.map fun f => f.2.size sizes).sum

end

variable (cl : Claripy) (sizes : String → ℕ)

/-- `value[size+offset-1:offset]`: claripy raises for an empty slice, or one that is out of bounds.
The slice from -1 to 0 is the whole value. -/
def slice (value : BV) (size offset : ℕ) : Option BV :=
  if size + offset = 0 then some value
  else if size = 0 ∨ value.size < size + offset then none
  else some (cl.extract (size + offset - 1) offset value)

/-- The loop of `type_wrap`. -/
def wrapFields (value : BV) : List (String × ScalarType) → ℕ → Option (List (String × BV))
  | [], _ => some []
  | (k, v) :: fields, offset => do
    let e ← slice cl value (v.size sizes) offset
    let rest ← wrapFields value fields (offset + v.size sizes)
    pure ((k, e) :: rest)

/-- `type_wrap` -/
def typeWrap (value : BV) : SpecType → Option SpecValue
  | .scalar _ => some (.bv value)
  | .record fields => (wrapFields cl sizes value fields 0).map .dict

/-- "so big as the type": zeros above the value. -/
def extendTo (size : ℕ) (value : BV) : BV :=
  if value.size < size then cl.zeroExt (size - value.size) value else value

/-- `type_unwrap` -/
def typeUnwrap (value : SpecValue) : Option SpecType → Option SpecValue
  | none => some value
  | some type =>
    match value, type with
    | .bv e, type => some (.bv (extendTo cl (typeSize sizes type) e))
    | .dict fields, .record types =>
      if fields.map Prod.fst ⊆ types.map Prod.fst ∧ types.map Prod.fst ⊆ fields.map Prod.fst then some value
      else none
    | .dict [], .scalar _ => none
    | .dict (first :: fields), .scalar type =>
      let result := fields.foldl (fun result v => cl.concat v.2 result) first.2
      some (.bv (extendTo cl (type.size sizes) result))

/-! ### Keys -/

open MixedRadix

variable {cl sizes} {ι : Env}

/-- A type's fields with their widths. -/
def widths (sizes : String → ℕ) (types : List (String × ScalarType)) : List (String × ℕ) :=
  types.map fun f => (f.1, f.2.size sizes)

/-- A record type: it has fields, with different names, and none without bits. -/
structure RecordType (sizes : String → ℕ) (types : List (String × ScalarType)) : Prop where
  nonempty : types ≠ []
  names : (types.map Prod.fst).Nodup
  positive : ∀ f ∈ types, 0 < f.2.size sizes

/-- The names and widths of a record's fields, in its order. -/
def order (record : List (String × BV)) : List (String × ℕ) := record.map fun f => (f.1, f.2.size)

/-- The record has exactly the fields of the type, in any order. -/
def IsRecord (sizes : String → ℕ) (types : List (String × ScalarType)) (record : List (String × BV)) : Prop :=
  (order record).Perm (widths sizes types)

/-- The value of a field. -/
def fieldValue (ι : Env) (record : List (String × BV)) (name : String) : ℕ :=
  ((record.lookup name).map (BV.eval ι)).getD 0

/-- The fields as digits, in the order of the record. -/
def digitsOf (ι : Env) (record : List (String × BV)) : List (ℕ × ℕ) :=
  record.map fun f => (f.2.eval ι, 2 ^ f.2.size)

/-- The fields as digits, in a given order. -/
def digitsIn (ι : Env) (record : List (String × BV)) (names : List (String × ℕ)) : List (ℕ × ℕ) :=
  names.map fun f => (fieldValue ι record f.1, 2 ^ f.2)

theorem proper_digitsOf (record : List (String × BV)) : Proper (digitsOf ι record) := by
  intro p hp
  obtain ⟨f, -, rfl⟩ := List.mem_map.mp hp
  exact f.2.eval_lt ι

theorem size_foldl_concat (fields : List (String × BV)) : ∀ first : BV,
    (fields.foldl (fun result v => cl.concat v.2 result) first).size =
      first.size + (fields.map fun f => f.2.size).sum := by
  induction fields with
  | nil => simp
  | cons f fields ih =>
    intro first
    rw [List.foldl_cons, ih, Claripy.size_concat, List.map_cons, List.sum_cons]
    omega

/-- What the loop of `type_unwrap` makes. -/
theorem eval_foldl_concat (fields : List (String × BV)) : ∀ first : BV,
    (fields.foldl (fun result v => cl.concat v.2 result) first).eval ι =
      first.eval ι + 2 ^ first.size * pack (digitsOf ι fields) := by
  induction fields with
  | nil => simp [digitsOf, pack]
  | cons f fields ih =>
    intro first
    rw [List.foldl_cons, ih, Claripy.eval_concat, Claripy.size_concat]
    simp only [digitsOf, List.map_cons, pack]
    ring

theorem eval_extendTo (size : ℕ) (e : BV) : (extendTo cl size e).eval ι = e.eval ι := by
  unfold extendTo
  split
  · exact Claripy.eval_zeroExt cl ι e _
  · rfl

theorem size_extendTo (size : ℕ) (e : BV) : (extendTo cl size e).size = max size e.size := by
  unfold extendTo
  split
  · rw [Claripy.size_zeroExt]
    omega
  · omega

/-- **A record's key** is the number of its fields in the order of its dictionary. -/
theorem typeUnwrap_record (cl : Claripy) (sizes : String → ℕ) {record : List (String × BV)} (hr : record ≠ [])
    (keySize : ℕ) :
    ∃ key, typeUnwrap cl sizes (.dict record) (some (.scalar (.bits keySize))) = some (.bv key) ∧
      key.size = max keySize (record.map fun f => f.2.size).sum ∧
      ∀ ι : Env, key.eval ι = pack (digitsOf ι record) := by
  cases record with
  | nil => exact absurd rfl hr
  | cons first fields =>
    refine ⟨_, rfl, ?_, fun ι => ?_⟩
    · rw [size_extendTo, size_foldl_concat]
      rfl
    · rw [eval_extendTo, eval_foldl_concat]
      rfl

/-! ### Records of keys -/

theorem slice_some (cl : Claripy) {value : BV} {size offset : ℕ} (hs : 0 < size) (h : offset + size ≤ value.size) :
    ∃ e, slice cl value size offset = some e ∧ ∀ ι : Env, e.eval ι = value.eval ι / 2 ^ offset % 2 ^ size := by
  refine ⟨cl.extract (size + offset - 1) offset value, ?_, fun ι => ?_⟩
  · unfold slice
    rw [if_neg (by omega), if_neg (by omega)]
  · rw [Claripy.eval_extract, show size + offset - 1 + 1 - offset = size by omega]

/-- A record cut from a key has given values exactly when these are digits of the key. -/
theorem wrapFields_digits (cl : Claripy) {value : BV} (g : String → ℕ) :
    ∀ {types : List (String × ScalarType)} {offset : ℕ},
    (types.map Prod.fst).Nodup → (∀ f ∈ types, 0 < f.2.size sizes) →
    offset + (types.map fun f => f.2.size sizes).sum ≤ value.size →
    ∃ wrapped, wrapFields cl sizes value types offset = some wrapped ∧ ∀ ι : Env,
      ((∀ f ∈ types, ∃ d, wrapped.lookup f.1 = some d ∧ d.eval ι = g f.1) ↔
        Digits (value.eval ι / 2 ^ offset) ((widths sizes types).map fun f => (g f.1, 2 ^ f.2)))
  | [], offset, _, _, _ => ⟨[], rfl, fun ι => by simp [widths, Digits]⟩
  | (k, v) :: types, offset, hn, hpos, hle => by
    rw [List.map_cons, List.nodup_cons] at hn
    rw [List.map_cons, List.sum_cons, ← Nat.add_assoc] at hle
    have hv : 0 < v.size sizes := hpos _ List.mem_cons_self
    obtain ⟨e, he, heval⟩ := slice_some cl hv ((Nat.le_add_right _ _).trans hle)
    obtain ⟨rest, hrest, hiff⟩ := wrapFields_digits cl g hn.2 (fun f hf => hpos f (List.mem_cons_of_mem _ hf)) hle
    refine ⟨(k, e) :: rest, ?_, fun ι => ?_⟩
    · unfold wrapFields
      rw [he, hrest]
      rfl
    · have hlater : ∀ f ∈ types, ((k, e) :: rest).lookup f.1 = rest.lookup f.1 := by
        intro f hf
        have hne : (f.1 == k) = false := by
          rw [beq_eq_false_iff_ne]
          rintro rfl
          exact hn.1 (List.mem_map.mpr ⟨f, hf, rfl⟩)
        rw [List.lookup_cons, hne]
      have hrec := hiff ι
      rw [pow_add, ← Nat.div_div_eq_div_mul] at hrec
      simp only [widths, List.map_cons, Digits, List.forall_mem_cons]
      rw [show (types.map fun f => (f.1, f.2.size sizes)) = widths sizes types from rfl, ← hrec]
      apply and_congr
      · simp [heval]
      · exact forall₂_congr fun f hf => by rw [hlater f hf]

/-! ### The trip through a map -/

theorem lookup_of_mem {α : Type} {l : List (String × α)} (hn : (l.map Prod.fst).Nodup) {f : String × α} (hf : f ∈ l) :
    l.lookup f.1 = some f.2 := by
  induction l with
  | nil => cases hf
  | cons g l ih =>
    rw [List.map_cons, List.nodup_cons] at hn
    rcases List.mem_cons.mp hf with rfl | hf
    · exact List.lookup_cons_self
    · have hne : (f.1 == g.1) = false := by
        rw [beq_eq_false_iff_ne]
        intro he
        exact hn.1 (List.mem_map.mpr ⟨f, hf, he⟩)
      rw [List.lookup_cons, hne]
      exact ih hn.2 hf

section Records

variable {types : List (String × ScalarType)} {record : List (String × BV)}

theorem order_names (record : List (String × BV)) : (order record).map Prod.fst = record.map Prod.fst := by
  simp [order]

theorem widths_names (types : List (String × ScalarType)) :
    (widths sizes types).map Prod.fst = types.map Prod.fst := by
  simp [widths]

theorem IsRecord.names (ht : RecordType sizes types) (hr : IsRecord sizes types record) :
    (record.map Prod.fst).Nodup := by
  rw [← order_names, (hr.map Prod.fst).nodup_iff, widths_names]
  exact ht.names

theorem fieldValue_of_mem (ht : RecordType sizes types) (hr : IsRecord sizes types record) {f : String × BV}
    (hf : f ∈ record) : fieldValue ι record f.1 = f.2.eval ι := by
  rw [fieldValue, lookup_of_mem (hr.names ht) hf]
  rfl

/-- Each field of the type is one of the record, of its width. -/
theorem IsRecord.field (hr : IsRecord sizes types record) {f : String × ScalarType} (hf : f ∈ types) :
    ∃ g ∈ record, g.1 = f.1 ∧ g.2.size = f.2.size sizes := by
  have hmem : (f.1, f.2.size sizes) ∈ order record := hr.mem_iff.mpr (List.mem_map.mpr ⟨f, hf, rfl⟩)
  obtain ⟨g, hg, he⟩ := List.mem_map.mp hmem
  exact ⟨g, hg, (Prod.mk.inj he).1, (Prod.mk.inj he).2⟩

theorem IsRecord.type (hr : IsRecord sizes types record) {g : String × BV} (hg : g ∈ record) :
    ∃ f ∈ types, f.1 = g.1 ∧ f.2.size sizes = g.2.size := by
  have hmem : (g.1, g.2.size) ∈ widths sizes types := hr.mem_iff.mp (List.mem_map.mpr ⟨g, hg, rfl⟩)
  obtain ⟨f, hf, he⟩ := List.mem_map.mp hmem
  exact ⟨f, hf, (Prod.mk.inj he).1, (Prod.mk.inj he).2⟩

theorem proper_digitsIn (ht : RecordType sizes types) (hr : IsRecord sizes types record) :
    Proper (digitsIn ι record (widths sizes types)) := by
  intro p hp
  obtain ⟨w, hw, rfl⟩ := List.mem_map.mp hp
  obtain ⟨f, hf, rfl⟩ := List.mem_map.mp hw
  obtain ⟨g, hg, hname, hsize⟩ := hr.field hf
  dsimp only
  rw [← hname, fieldValue_of_mem ht hr hg, ← hsize]
  exact g.2.eval_lt ι

theorem bases_digitsOf (ι : Env) (record : List (String × BV)) :
    (digitsOf ι record).map Prod.snd = (order record).map fun f => 2 ^ f.2 := by
  simp [digitsOf, order]

theorem bases_digitsIn (ι : Env) (record : List (String × BV)) (names : List (String × ℕ)) :
    (digitsIn ι record names).map Prod.snd = names.map fun f => 2 ^ f.2 := by
  simp [digitsIn]

/-- In the record's own order the digits are those of its fields. -/
theorem digitsIn_order (ht : RecordType sizes types) (hr : IsRecord sizes types record) :
    digitsIn ι record (order record) = digitsOf ι record := by
  unfold digitsIn order digitsOf
  rw [List.map_map]
  apply List.map_congr_left
  intro f hf
  simp only [Function.comp_apply, fieldValue_of_mem ht hr hf]

theorem pack_lt_range_digitsIn (hr : IsRecord sizes types record) :
    pack (digitsOf ι record) < range (digitsIn ι record (widths sizes types)) := by
  have hperm := (hr.map fun f => 2 ^ f.2).prod_eq
  rw [← bases_digitsOf ι, ← bases_digitsIn ι record] at hperm
  rw [range_eq_prod, ← hperm, ← range_eq_prod]
  exact pack_lt (proper_digitsOf record)

end Records

/-- A record used as a key and made again of it, in one valuation: every field has its value. -/
def Returns (cl : Claripy) (sizes : String → ℕ) (ι : Env) (types : List (String × ScalarType)) (keySize : ℕ)
    (record : List (String × BV)) : Prop :=
  ∃ key wrapped, typeUnwrap cl sizes (.dict record) (some (.scalar (.bits keySize))) = some (.bv key) ∧
    typeWrap cl sizes key (.record types) = some (.dict wrapped) ∧
    ∀ f ∈ record, ∃ d, wrapped.lookup f.1 = some d ∧ d.eval ι = f.2.eval ι

/-- Two records are the same key, in one valuation. -/
def SameKey (cl : Claripy) (sizes : String → ℕ) (ι : Env) (keySize : ℕ) (record record' : List (String × BV)) : Prop :=
  ∃ key key', typeUnwrap cl sizes (.dict record) (some (.scalar (.bits keySize))) = some (.bv key) ∧
    typeUnwrap cl sizes (.dict record') (some (.scalar (.bits keySize))) = some (.bv key') ∧
    key.eval ι = key'.eval ι

section Trip

variable {types : List (String × ScalarType)} (ht : RecordType sizes types)
include ht

theorem IsRecord.ne_nil {record : List (String × BV)} (hr : IsRecord sizes types record) : record ≠ [] := by
  rintro rfl
  have hlen := hr.length_eq
  have hne := List.length_pos_of_ne_nil ht.nonempty
  simp only [order, widths, List.length_map, List.length_nil] at hlen
  omega

/-- **A record comes back** exactly when its order and the order of the type make the same number
of its fields. -/
theorem returns_iff (keySize : ℕ) {record : List (String × BV)} (hr : IsRecord sizes types record) :
    Returns cl sizes ι types keySize record ↔
      pack (digitsOf ι record) = pack (digitsIn ι record (widths sizes types)) := by
  obtain ⟨key, hkey, hsize, heval⟩ := typeUnwrap_record cl sizes (hr.ne_nil ht) keySize
  have hsum : 0 + (types.map fun f => f.2.size sizes).sum ≤ key.size := by
    have hperm := (hr.map Prod.snd).sum_eq
    simp only [order, widths, List.map_map, Function.comp_def] at hperm
    rw [hsize, hperm]
    omega
  obtain ⟨wrapped, hwrap, hiff⟩ :=
    wrapFields_digits cl (fieldValue ι record) ht.names ht.positive hsum
  have hdigits := hiff ι
  rw [pow_zero, Nat.div_one, heval] at hdigits
  have htrip : Returns cl sizes ι types keySize record ↔
      ∀ f ∈ types, ∃ d, wrapped.lookup f.1 = some d ∧ d.eval ι = fieldValue ι record f.1 := by
    constructor
    · rintro ⟨key', wrapped', hkey', hwrap', hall⟩ f hf
      cases hkey.symm.trans hkey'
      rw [typeWrap, hwrap] at hwrap'
      cases hwrap'
      obtain ⟨g, hg, hname, -⟩ := hr.field hf
      rw [← hname, fieldValue_of_mem ht hr hg]
      exact hall g hg
    · intro hall
      refine ⟨key, wrapped, hkey, by rw [typeWrap, hwrap]; rfl, fun g hg => ?_⟩
      obtain ⟨f, hf, hname, -⟩ := hr.type hg
      rw [← fieldValue_of_mem ht hr hg, ← hname]
      exact hall f hf
  rw [htrip, hdigits]
  exact digits_iff (proper_digitsIn ht hr) (pack_lt_range_digitsIn hr)

theorem sameKey_iff (keySize : ℕ) {record record' : List (String × BV)} (hr : IsRecord sizes types record)
    (hr' : IsRecord sizes types record') :
    SameKey cl sizes ι keySize record record' ↔ pack (digitsOf ι record) = pack (digitsOf ι record') := by
  obtain ⟨key, hkey, -, heval⟩ := typeUnwrap_record cl sizes (hr.ne_nil ht) keySize
  obtain ⟨key', hkey', -, heval'⟩ := typeUnwrap_record cl sizes (hr'.ne_nil ht) keySize
  rw [← heval, ← heval']
  constructor
  · rintro ⟨k, k', hk, hk', heq⟩
    cases hkey.symm.trans hk
    cases hkey'.symm.trans hk'
    exact heq
  · intro heq
    exact ⟨key, key', hkey, hkey', heq⟩

end Trip

/-! ### Orders of fields -/

/-- The record of an order in which one field is 1 and the others are 0. -/
def singleRecord (n : String) (fields : List (String × ℕ)) : List (String × BV) :=
  fields.map fun f => (f.1, bvv f.2 (if f.1 = n then 1 else 0))

theorem order_singleRecord (n : String) (fields : List (String × ℕ)) : order (singleRecord n fields) = fields := by
  simp [order, singleRecord, Function.comp_def]

section Orders

variable {types : List (String × ScalarType)} {fields fields' : List (String × ℕ)} (ht : RecordType sizes types)
  (hf : fields.Perm (widths sizes types))
include ht hf

theorem positive_of_perm {f : String × ℕ} (h : f ∈ fields) : 0 < f.2 := by
  obtain ⟨t, hmem, rfl⟩ := List.mem_map.mp (hf.mem_iff.mp h)
  exact ht.positive t hmem

theorem names_of_perm : (fields.map Prod.fst).Nodup := by
  rw [(hf.map Prod.fst).nodup_iff, widths_names]
  exact ht.names

omit ht in
theorem isRecord_single (n : String) : IsRecord sizes types (singleRecord n fields) := by
  unfold IsRecord
  rwa [order_singleRecord]

theorem digitsOf_single (n : String) : digitsOf ι (singleRecord n fields) = single n fields := by
  unfold digitsOf singleRecord single
  rw [List.map_map]
  apply List.map_congr_left
  intro f hmem
  have hpos := positive_of_perm ht hf hmem
  have hone : 1 < 2 ^ f.2 := Nat.one_lt_two_pow hpos.ne'
  dsimp only [Function.comp_apply]
  rw [Claripy.eval_bvv, Claripy.size_bvv]
  split_ifs
  · rw [Nat.mod_eq_of_lt hone]
  · rw [Nat.zero_mod]

theorem digitsIn_single (hf' : fields'.Perm (widths sizes types)) (n : String) :
    digitsIn ι (singleRecord n fields) fields' = single n fields' := by
  have hrec := isRecord_single hf n
  unfold digitsIn single
  apply List.map_congr_left
  intro f hmem
  have hmem' : f ∈ fields := hf.mem_iff.mpr (hf'.mem_iff.mp hmem)
  have hin : (f.1, bvv f.2 (if f.1 = n then 1 else 0)) ∈ singleRecord n fields := List.mem_map.mpr ⟨f, hmem', rfl⟩
  have hone : 1 < 2 ^ f.2 := Nat.one_lt_two_pow (positive_of_perm ht hf hmem').ne'
  rw [fieldValue_of_mem ht hrec hin, Claripy.eval_bvv]
  split_ifs
  · rw [Nat.mod_eq_of_lt hone]
  · rw [Nat.zero_mod]

/-- All records of an order come back exactly when it is the order of the type. -/
theorem order_returns_iff (keySize : ℕ) :
    (∀ record, order record = fields → ∀ ι, Returns cl sizes ι types keySize record) ↔
      fields = widths sizes types := by
  constructor
  · intro h
    apply order_unique hf (names_of_perm ht hf) fun f => positive_of_perm ht hf
    intro n _
    have hret := h (singleRecord n fields) (order_singleRecord n fields) ⟨fun _ => 0, fun _ => false⟩
    rw [returns_iff ht keySize (isRecord_single hf n), digitsOf_single ht hf,
      digitsIn_single ht hf (List.Perm.refl _)] at hret
    exact hret
  · rintro rfl record hord ι
    have hrec : IsRecord sizes types record := by rw [IsRecord, hord]
    rw [returns_iff ht keySize hrec, ← hord, digitsIn_order ht hrec]

/-- Records of two orders are the same key exactly when they have the same fields, if the orders
are the same and only then. -/
theorem order_sameKey_iff (hf' : fields'.Perm (widths sizes types)) (keySize : ℕ) :
    (∀ record record', order record = fields → order record' = fields' → ∀ ι,
      (SameKey cl sizes ι keySize record record' ↔
        ∀ f ∈ types, fieldValue ι record f.1 = fieldValue ι record' f.1)) ↔ fields = fields' := by
  constructor
  · intro h
    apply order_unique (hf.trans hf'.symm) (names_of_perm ht hf) fun f => positive_of_perm ht hf
    intro n _
    have hrec := isRecord_single hf n
    have hrec' := isRecord_single hf' n
    have hsame := (h (singleRecord n fields) (singleRecord n fields') (order_singleRecord n fields)
      (order_singleRecord n fields') ⟨fun _ => 0, fun _ => false⟩).mpr fun f hmem => ?_
    · rw [sameKey_iff ht keySize hrec hrec', digitsOf_single ht hf, digitsOf_single ht hf'] at hsame
      exact hsame
    · have hin : (f.1, f.2.size sizes) ∈ widths sizes types := List.mem_map.mpr ⟨f, hmem, rfl⟩
      have hone : (f.1, bvv (f.2.size sizes) (if f.1 = n then 1 else 0)) ∈ singleRecord n fields :=
        List.mem_map.mpr ⟨_, hf.mem_iff.mpr hin, rfl⟩
      have hone' : (f.1, bvv (f.2.size sizes) (if f.1 = n then 1 else 0)) ∈ singleRecord n fields' :=
        List.mem_map.mpr ⟨_, hf'.mem_iff.mpr hin, rfl⟩
      rw [fieldValue_of_mem ht hrec hone, fieldValue_of_mem ht hrec' hone']
  · rintro rfl record record' hord hord' ι
    have hrec : IsRecord sizes types record := by rwa [IsRecord, hord]
    have hrec' : IsRecord sizes types record' := by rwa [IsRecord, hord']
    rw [sameKey_iff ht keySize hrec hrec']
    have hbases : (digitsOf ι record).map Prod.snd = (digitsOf ι record').map Prod.snd := by
      rw [bases_digitsOf, bases_digitsOf, hord, hord']
    constructor
    · intro heq f hmem
      have hdigits := pack_inj (proper_digitsOf record) (proper_digitsOf record') hbases heq
      rw [← digitsIn_order ht hrec, ← digitsIn_order ht hrec', hord, hord'] at hdigits
      have hin : (f.1, f.2.size sizes) ∈ fields := hf.mem_iff.mpr (List.mem_map.mpr ⟨f, hmem, rfl⟩)
      have heach := List.map_inj_left.mp hdigits _ hin
      exact (Prod.mk.inj heach).1
    · intro hall
      rw [← digitsIn_order ht hrec, ← digitsIn_order ht hrec', hord, hord']
      congr 1
      apply List.map_congr_left
      intro f hmem
      obtain ⟨t, htmem, rfl⟩ := List.mem_map.mp (hf.mem_iff.mp hmem)
      simp only [hall t htmem]

end Orders

/-- Records of two orders survive the trip through a map: each comes back, and two of them are the
same key exactly when all their fields are equal. -/
structure Survive (cl : Claripy) (sizes : String → ℕ) (types : List (String × ScalarType)) (keySize : ℕ)
    (fields fields' : List (String × ℕ)) : Prop where
  returns : ∀ record, order record = fields → ∀ ι, Returns cl sizes ι types keySize record
  returns' : ∀ record, order record = fields' → ∀ ι, Returns cl sizes ι types keySize record
  sameKey : ∀ record record', order record = fields → order record' = fields' → ∀ ι,
    (SameKey cl sizes ι keySize record record' ↔ ∀ f ∈ types, fieldValue ι record f.1 = fieldValue ι record' f.1)

/-- **Structured keys.** A record survives the trip through a map exactly when its order and the
type's make the same number of its fields; all records of some orders do exactly when these
are the order of the type. -/
theorem records_survive_iff (cl : Claripy) (sizes : String → ℕ) (types : List (String × ScalarType))
    (ht : RecordType sizes types) (keySize : ℕ) :
    (∀ record, IsRecord sizes types record → ∀ ι, (Returns cl sizes ι types keySize record ↔
      pack (digitsOf ι record) = pack (digitsIn ι record (widths sizes types)))) ∧
    ∀ fields fields', fields.Perm (widths sizes types) → fields'.Perm (widths sizes types) →
      (Survive cl sizes types keySize fields fields' ↔
        fields = widths sizes types ∧ fields' = widths sizes types) := by
  refine ⟨fun record hrec ι => returns_iff ht keySize hrec, fun fields fields' hf hf' => ?_⟩
  constructor
  · intro h
    exact ⟨(order_returns_iff ht hf keySize).mp h.returns, (order_returns_iff ht hf' keySize).mp h.returns'⟩
  · rintro ⟨rfl, rfl⟩
    exact ⟨(order_returns_iff ht hf keySize).mpr rfl, (order_returns_iff ht hf keySize).mpr rfl,
      (order_sameKey_iff ht hf hf keySize).mpr rfl⟩

/-- A port and the flag after it. -/
def portFlag : List (String × ScalarType) := [("port", .bits 16), ("flag", .bits 8)]

theorem portFlag_record : RecordType (fun _ => 0) portFlag := ⟨by decide, by decide, by decide⟩

/-- The flag 1 and port 257 come back in either order, as both orders make the number 65793; all records do in the
order of the type only. -/
theorem records_survive_portFlag :
    (∀ ι, Returns plain (fun _ => 0) ι portFlag 64 [("flag", bvv 8 1), ("port", bvv 16 257)]) ∧
      Survive plain (fun _ => 0) portFlag 64 [("port", 16), ("flag", 8)] [("port", 16), ("flag", 8)] ∧
      ¬ Survive plain (fun _ => 0) portFlag 64 [("port", 16), ("flag", 8)] [("flag", 8), ("port", 16)] := by
  obtain ⟨hrecord, horders⟩ := records_survive_iff plain (fun _ => 0) portFlag portFlag_record 64
  refine ⟨fun ι => ?_, ?_, ?_⟩
  · apply (hrecord [("flag", bvv 8 1), ("port", bvv 16 257)] ?_ ι).mpr
    · have hown : digitsOf ι [("flag", bvv 8 1), ("port", bvv 16 257)] = [(1, 256), (257, 65536)] := rfl
      have htype : digitsIn ι [("flag", bvv 8 1), ("port", bvv 16 257)] (widths (fun _ => 0) portFlag) =
          [(257, 65536), (1, 256)] := rfl
      rw [hown, htype]
      decide
    · unfold IsRecord
      decide
  · exact (horders _ _ (by decide) (by decide)).mpr ⟨rfl, rfl⟩
  · intro h
    exact absurd ((horders _ _ (by decide) (by decide)).mp h).2 (by decide)

/-- The flag 1 and port 0, inserted flag first: the port comes back as 1. -/
theorem not_survives :
    ¬ ∀ (cl : Claripy) (sizes : String → ℕ) (types : List (String × ScalarType)) (keySize : ℕ),
      RecordType sizes types → typeSize sizes (.record types) ≤ keySize →
      ∀ record, IsRecord sizes types record → ∀ ι, Returns cl sizes ι types keySize record := by
  intro h
  let record : List (String × BV) := [("flag", bvv 8 1), ("port", bvv 16 0)]
  have hrec : IsRecord (fun _ => 0) portFlag record := by
    unfold IsRecord
    decide
  have hret := h plain (fun _ => 0) portFlag 64 portFlag_record (by decide) record hrec ⟨fun _ => 0, fun _ => false⟩
  rw [returns_iff portFlag_record 64 hrec] at hret
  exact absurd hret (by decide)

end SpecTypes
end Tool
end Klint

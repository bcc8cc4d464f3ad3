/-
# The configuration

A network function reads its parameters by name from the table of the build
(`NF_CONFIG_DATA`), through `os_config_get` (`env/include/os/config.h`) with
a range that depends on the type. `none` is the C functions' false.
-/
import Klint.Os.Memory

namespace Klint

/-- The table of names and values. -/
abbrev ConfigItems := List (String × UInt64)

/-- The first entry of the name. -/
def osConfigTryGet (items : ConfigItems) (name : String) : Option UInt64 :=
  (items.find? fun it => it.1 == name).map (·.2)

/-- The lower bound is compared as signed, and only if it is not 0. -/
def osConfigGet (items : ConfigItems) (name : String) (min max : UInt64) : Option UInt64 :=
  match osConfigTryGet items name with
  | none => none
  | some value =>
    if min ≠ 0 ∧ value.toInt64 < min.toInt64 then none
    else if value ≤ max then some value else none

def osConfigGetU64 (items : ConfigItems) (name : String) : Option UInt64 :=
  osConfigGet items name 0 (UInt64.ofNat (2 ^ 64 - 1))

def osConfigGetU32 (items : ConfigItems) (name : String) : Option UInt32 :=
  (osConfigGet items name 0 (UInt64.ofNat (2 ^ 32 - 1))).map UInt64.toUInt32

def osConfigGetU16 (items : ConfigItems) (name : String) : Option UInt16 :=
  (osConfigGet items name 0 (UInt64.ofNat (2 ^ 16 - 1))).map UInt64.toUInt16

/-- A `size_t`, at most `SIZE_MAX / 64`. -/
def osConfigGetSize (items : ConfigItems) (name : String) : Option ℕ :=
  (osConfigGet items name 0 (UInt64.ofNat (sizeMax / 64))).map UInt64.toNat

/-- A `time_t`, from `TIME_MIN`, which is 0, to `TIME_MAX`. -/
def osConfigGetTime (items : ConfigItems) (name : String) : Option ℕ :=
  (osConfigGet items name 0 (UInt64.ofNat (2 ^ 64 - 1))).map UInt64.toNat

/-- A device, below `devices_count`. -/
def osConfigGetDevice (items : ConfigItems) (name : String) (devicesCount : UInt16) : Option UInt16 :=
  (osConfigGet items name 0 (UInt64.ofNat (devicesCount.toNat - 1))).map UInt64.toUInt16

theorem osConfigGet_le {items : ConfigItems} {name : String} {min max v : UInt64}
    (h : osConfigGet items name min max = some v) : v ≤ max := by
  unfold osConfigGet at h
  split at h
  · cases h
  · split_ifs at h with h1 h2
    cases h; exact h2

/-- The bound of a `size_t` parameter is the bound of the containers. -/
theorem osConfigGetSize_le {items : ConfigItems} {name : String} {n : ℕ}
    (h : osConfigGetSize items name = some n) : n * 64 ≤ sizeMax := by
  simp only [osConfigGetSize, Option.map_eq_some_iff] at h
  obtain ⟨v, hv, rfl⟩ := h
  have hle := UInt64.le_iff_toNat_le.mp (osConfigGet_le hv)
  rw [UInt64.toNat_ofNat'] at hle
  unfold sizeMax at *
  omega

end Klint

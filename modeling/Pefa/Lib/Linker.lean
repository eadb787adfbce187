import Mathlib

/-!
# Modules, their keys and their symbols

A linker holds loaded modules, each under a key, and finds symbols in them by name. Keys are given
out in increasing order, each once. Modules do not share a namespace of their own: a name that
several loaded modules export is found in the one with the smallest key, the one that was loaded
first.

So a module that was just added is where a name is found only if no module exported the name
before (`find_add_of_none`); else the name stays where it was (`find_add_of_some`).
-/

/-- A linker for modules `μ`, which export the names `exports`. -/
structure Linker (μ : Type) (exports : μ → List String) where
  State : Type
  init : State
  /-- The key that was given out last. -/
  lastKey : State → Nat
  /-- The modules that are loaded. -/
  loaded : State → Nat → Option μ
  allocate : State → Nat × State
  add : State → Nat → μ → State
  remove : State → Nat → State
  /-- The key of the module in which a name is found. -/
  find : State → String → Option Nat
  loaded_init : ∀ k, loaded init k = none
  lt_allocate : ∀ s, lastKey s < (allocate s).1
  lastKey_allocate : ∀ s, lastKey (allocate s).2 = (allocate s).1
  loaded_allocate : ∀ s, loaded (allocate s).2 = loaded s
  lastKey_add : ∀ s k m, lastKey (add s k m) = lastKey s
  loaded_add : ∀ s k m, loaded (add s k m) = Function.update (loaded s) k (some m)
  lastKey_remove : ∀ s k, lastKey (remove s k) = lastKey s
  loaded_remove : ∀ s k, loaded (remove s k) = Function.update (loaded s) k none
  find_eq_some : ∀ s name k, find s name = some k ↔
    IsLeast {k | ∃ m, loaded s k = some m ∧ name ∈ exports m} k

namespace Linker

variable {μ : Type} {exports : μ → List String} {L : Linker μ exports}

/-- Modules are loaded under keys that were given out. -/
def KeysGiven (L : Linker μ exports) (s : L.State) : Prop :=
  ∀ k m, L.loaded s k = some m → k ≤ L.lastKey s

theorem keysGiven_init : L.KeysGiven L.init := by
  intro k m h
  rw [L.loaded_init] at h
  cases h

/-- What is found is in a module that is loaded and exports it. -/
theorem exports_of_find {s : L.State} {name : String} {k : Nat} (h : L.find s name = some k) :
    ∃ m, L.loaded s k = some m ∧ name ∈ exports m :=
  ((L.find_eq_some s name k).mp h).1

/-- The state after a module is added under a new key. -/
theorem loaded_addFresh (s : L.State) (m : μ) :
    L.loaded (L.add (L.allocate s).2 (L.allocate s).1 m) =
      Function.update (L.loaded s) (L.allocate s).1 (some m) := by
  rw [L.loaded_add, L.loaded_allocate]

section Add

variable {s : L.State} (h : L.KeysGiven s)
include h

/-- A new key is not in use. -/
theorem loaded_fresh : L.loaded s (L.allocate s).1 = none := by
  by_contra hne
  obtain ⟨m, hm⟩ := Option.ne_none_iff_exists'.mp hne
  exact absurd (h _ m hm) (Nat.not_le_of_lt (L.lt_allocate s))

theorem keysGiven_add (m : μ) : L.KeysGiven (L.add (L.allocate s).2 (L.allocate s).1 m) := by
  intro k m' hk
  rw [L.lastKey_add, L.lastKey_allocate]
  rw [loaded_addFresh] at hk
  by_cases heq : k = (L.allocate s).1
  · exact heq.le
  · rw [Function.update_of_ne heq] at hk
    exact (h k m' hk).trans (L.lt_allocate s).le

theorem keysGiven_remove (k : Nat) : L.KeysGiven (L.remove s k) := by
  intro k' m hk
  rw [L.lastKey_remove]
  rw [L.loaded_remove] at hk
  by_cases heq : k' = k
  · rw [heq, Function.update_self] at hk
    cases hk
  · rw [Function.update_of_ne heq] at hk
    exact h k' m hk

/-- A name that was found before is found where it was. -/
theorem find_add_of_some {name : String} {k : Nat} (hfind : L.find s name = some k) (m : μ) :
    L.find (L.add (L.allocate s).2 (L.allocate s).1 m) name = some k := by
  obtain ⟨⟨m', hm', hname⟩, hleast⟩ := (L.find_eq_some s name k).mp hfind
  have hlt : k < (L.allocate s).1 := (h k m' hm').trans_lt (L.lt_allocate s)
  rw [L.find_eq_some, loaded_addFresh]
  refine ⟨⟨m', by rw [Function.update_of_ne hlt.ne, hm'], hname⟩, ?_⟩
  rintro k' ⟨m'', hm'', hname''⟩
  by_cases heq : k' = (L.allocate s).1
  · rw [heq]
    exact hlt.le
  · rw [Function.update_of_ne heq] at hm''
    exact hleast ⟨m'', hm'', hname''⟩

end Add

/-- A name that was not found before is found in the new module. -/
theorem find_add_of_none {s : L.State} {name : String} (hfind : L.find s name = none) {m : μ}
    (hname : name ∈ exports m) :
    L.find (L.add (L.allocate s).2 (L.allocate s).1 m) name = some (L.allocate s).1 := by
  rw [L.find_eq_some, loaded_addFresh]
  refine ⟨⟨m, Function.update_self _ _ _, hname⟩, ?_⟩
  rintro k' ⟨m', hm', hname'⟩
  by_contra hlt
  have hne : k' ≠ (L.allocate s).1 := fun heq => hlt heq.ge
  rw [Function.update_of_ne hne] at hm'
  -- a module that was there before would have been found, or one with a smaller key
  obtain ⟨k, hk⟩ : ∃ k, IsLeast {k | ∃ m, L.loaded s k = some m ∧ name ∈ exports m} k :=
    ⟨_, Nat.sInf_mem ⟨k', m', hm', hname'⟩, fun _ hk => Nat.sInf_le hk⟩
  rw [← L.find_eq_some, hfind] at hk
  cases hk

/-! ## A linker -/

/-- The last key and the loaded modules. -/
structure Tables (μ : Type) where
  lastKey : Nat
  modules : AList fun _ : Nat => μ

/-- The keys of the modules that export a name. -/
def Tables.exporting (exports : μ → List String) (t : Tables μ) (name : String) : List Nat :=
  (t.modules.entries.filter fun e => decide (name ∈ exports e.2)).map (·.1)

theorem Tables.mem_exporting (t : Tables μ) (name : String) (k : Nat) :
    k ∈ t.exporting exports name ↔ ∃ m, t.modules.lookup k = some m ∧ name ∈ exports m := by
  simp only [exporting, List.mem_map, List.mem_filter, decide_eq_true_eq]
  constructor
  · rintro ⟨⟨k', m⟩, ⟨hmem, hname⟩, rfl⟩
    exact ⟨m, AList.mem_lookup_iff.mpr hmem, hname⟩
  · rintro ⟨m, hm, hname⟩
    exact ⟨⟨k, m⟩, ⟨AList.mem_lookup_iff.mp hm, hname⟩, rfl⟩

/-- A linker that keeps its modules in a table. -/
def ofTables (exports : μ → List String) : Linker μ exports where
  State := Tables μ
  init := ⟨0, ∅⟩
  lastKey := Tables.lastKey
  loaded t k := t.modules.lookup k
  allocate t := (t.lastKey + 1, { t with lastKey := t.lastKey + 1 })
  add t k m := { t with modules := t.modules.insert k m }
  remove t k := { t with modules := t.modules.erase k }
  find t name := (t.exporting exports name).min?
  loaded_init k := AList.lookup_empty k
  lt_allocate t := Nat.lt_succ_self _
  lastKey_allocate t := rfl
  loaded_allocate t := rfl
  lastKey_add t k m := rfl
  loaded_add t k m := by
    funext k'
    by_cases h : k' = k
    · rw [h, Function.update_self, AList.lookup_insert]
    · rw [Function.update_of_ne h, AList.lookup_insert_ne h]
  lastKey_remove t k := rfl
  loaded_remove t k := by
    funext k'
    by_cases h : k' = k
    · rw [h, Function.update_self, AList.lookup_erase]
    · rw [Function.update_of_ne h, AList.lookup_erase_ne h]
  find_eq_some t name k := by
    rw [List.min?_eq_some_iff, Tables.mem_exporting]
    refine and_congr Iff.rfl ⟨fun h k' hk' => h k' ?_, fun h k' hk' => h ?_⟩
    · exact (Tables.mem_exporting t name k').mpr hk'
    · exact (Tables.mem_exporting t name k').mp hk'

end Linker

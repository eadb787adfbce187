import Mathlib

/-!
# Arenas

Cells that are added one after another and can be overwritten, each with at most one link. A link
goes to an older cell and is not changed by overwriting, so the cells along the links from a
pointer are a list (`chain`).

What overwriting does to a list is a matter of which cells are on it. The cells are divided into
regions such that no link leaves its region (`Regions`); then a list is as it was if the cells of
its region are (`chain_congr_region`).
-/

/-- Cells `ν` whose links go to older cells. -/
structure Arena (ν : Type) (link : ν → Option Nat) where
  cells : List ν
  descends : ∀ {a : Nat} {c : ν} {i : Nat}, cells[a]? = some c → link c = some i → i < a

namespace Arena

variable {ν : Type} {link : ν → Option Nat}

/-- The address of the next cell. -/
def size (h : Arena ν link) : Nat := h.cells.length

/-- A pointer that is null or points to a cell. -/
def Valid (h : Arena ν link) (p : Option Nat) : Prop := ∀ a ∈ p, a < h.size

instance (h : Arena ν link) (p : Option Nat) : Decidable (h.Valid p) :=
  inferInstanceAs (Decidable (∀ a ∈ p, a < h.size))

theorem lt_size {h : Arena ν link} {a : Nat} {c : ν} (hc : h.cells[a]? = some c) : a < h.size :=
  (List.getElem?_eq_some_iff.mp hc).1

theorem exists_cell {h : Arena ν link} {a : Nat} (ha : a < h.size) : ∃ c, h.cells[a]? = some c :=
  ⟨_, List.getElem?_eq_getElem ha⟩

/-! ## Adding and overwriting cells -/

/-- Add a cell at address `size`, if its link is not dangling. -/
def alloc? (h : Arena ν link) (c : ν) : Option (Arena ν link) :=
  if hc : h.Valid (link c) then some
    { cells := h.cells ++ [c]
      descends := fun {a c' i} hget hlink => by
        rcases Nat.lt_or_ge a h.cells.length with ha | ha
        · rw [List.getElem?_append_left ha] at hget
          exact h.descends hget hlink
        · rw [List.getElem?_append_right ha] at hget
          obtain ⟨h0, rfl⟩ := List.getElem?_eq_some_iff.mp hget
          have hi := hc i (by simpa using hlink)
          exact lt_of_lt_of_le hi ha }
  else none

theorem alloc?_eq_some {h : Arena ν link} {c : ν} (hc : h.Valid (link c)) :
    ∃ h', h.alloc? c = some h' ∧ h'.cells = h.cells ++ [c] := ⟨_, dif_pos hc, rfl⟩

/-- Overwrite a cell by one with the same link. -/
def set (h : Arena ν link) (a : Nat) (c : ν)
    (hc : ∀ old, h.cells[a]? = some old → link c = link old) : Arena ν link where
  cells := h.cells.set a c
  descends := fun {b c' i} hget hlink => by
    rw [List.getElem?_set] at hget
    split at hget
    · next hab =>
        subst hab
        split at hget
        · next hlt =>
            cases hget
            have hold := List.getElem?_eq_getElem hlt
            exact h.descends hold ((hc _ hold).symm.trans hlink)
        · cases hget
    · exact h.descends hget hlink

/-! ## Following the links -/

/-- How far a pointer is from null. -/
def rank : Option Nat → Nat
  | none => 0
  | some a => a + 1

theorem rank_link_lt {h : Arena ν link} {a : Nat} {c : ν} (hc : h.cells[a]? = some c) :
    rank (link c) < rank (some a) := by
  cases hl : link c with
  | none => exact Nat.succ_pos a
  | some i => exact Nat.succ_lt_succ (h.descends hc hl)

/-- Induction along the links. -/
theorem pointer_induction (h : Arena ν link) {P : Option Nat → Prop} (null : P none)
    (dangling : ∀ a, h.cells[a]? = none → P (some a))
    (cell : ∀ a c, h.cells[a]? = some c → P (link c) → P (some a)) : ∀ p, P p := by
  intro p
  induction hk : rank p using Nat.strongRecOn generalizing p with
  | _ k ih =>
      subst hk
      cases p with
      | none => exact null
      | some a =>
          cases hc : h.cells[a]? with
          | none => exact dangling a hc
          | some c => exact cell a c hc (ih _ (rank_link_lt hc) _ rfl)

/-- The cells along the links from a pointer. -/
def chain (h : Arena ν link) (p : Option Nat) : List ν :=
  match p with
  | none => []
  | some a =>
      match _ : h.cells[a]? with
      | none => []
      | some c => c :: h.chain (link c)
termination_by rank p
decreasing_by exact rank_link_lt (by assumption)

@[simp] theorem chain_none (h : Arena ν link) : h.chain none = [] := by rw [chain]

theorem chain_dangling {h : Arena ν link} {a : Nat} (hc : h.cells[a]? = none) :
    h.chain (some a) = [] := by
  rw [chain]
  split
  · rfl
  · next hget =>
      rw [hc] at hget
      cases hget

theorem chain_some {h : Arena ν link} {a : Nat} {c : ν} (hc : h.cells[a]? = some c) :
    h.chain (some a) = c :: h.chain (link c) := by
  rw [chain]
  split
  · next hget =>
      rw [hc] at hget
      cases hget
  · next hget =>
      rw [hc] at hget
      cases hget
      rfl

/-- A list is as it was if the cells of a part of the arena are that no link leaves. -/
theorem chain_congr {h h' : Arena ν link} {D : Nat → Prop}
    (hcells : ∀ a, D a → h'.cells[a]? = h.cells[a]?)
    (hclosed : ∀ a c i, D a → h.cells[a]? = some c → link c = some i → D i) (p : Option Nat) :
    (∀ a ∈ p, D a) → h'.chain p = h.chain p := by
  induction p using h.pointer_induction with
  | null => simp
  | dangling a hc =>
      intro hp
      rw [chain_dangling hc, chain_dangling ((hcells a (hp a rfl)).trans hc)]
  | cell a c hc ih =>
      intro hp
      have ha := hp a rfl
      rw [chain_some hc, chain_some ((hcells a ha).trans hc),
        ih fun i hi => hclosed a c i ha hc hi]

/-- A list is as it was if all cells are that there were. -/
theorem chain_of_extends {h h' : Arena ν link} (hcells : ∀ a < h.size, h'.cells[a]? = h.cells[a]?)
    {p : Option Nat} (hp : h.Valid p) : h'.chain p = h.chain p :=
  chain_congr hcells (fun _ _ _ ha hc hi => lt_trans (h.descends hc hi) ha) p hp

/-- The list from an overwritten cell: what comes after it is older and has not changed. -/
theorem chain_set {h : Arena ν link} {a : Nat} {c old : ν}
    (hc : ∀ old, h.cells[a]? = some old → link c = link old) (hold : h.cells[a]? = some old) :
    (h.set a c hc).chain (some a) = c :: h.chain (link c) := by
  have hget : (h.set a c hc).cells[a]? = some c := List.getElem?_set_self (lt_size hold)
  rw [chain_some hget]
  refine congrArg (c :: ·) (chain_congr (D := (· < a)) (fun b hb => ?_) ?_ _ fun i hi => ?_)
  · exact List.getElem?_set_ne (Nat.ne_of_gt hb)
  · exact fun b c' i hb hget' hi => lt_trans (h.descends hget' hi) hb
  · exact h.descends hold ((hc old hold).symm.trans hi)

/-! ## Regions -/

/-- No link leaves its region. -/
def Regions (region : Nat → Nat) (h : Arena ν link) : Prop :=
  ∀ a c i, h.cells[a]? = some c → link c = some i → region i = region a

/-- The pointer is null or points into region `k`. -/
def Within (region : Nat → Nat) (h : Arena ν link) (k : Nat) (p : Option Nat) : Prop :=
  ∀ a ∈ p, a < h.size ∧ region a = k

theorem Within.valid {region : Nat → Nat} {h : Arena ν link} {k : Nat} {p : Option Nat}
    (hp : Within region h k p) : h.Valid p := fun a ha => (hp a ha).1

/-- A link of a cell of a region stays in it. -/
theorem Regions.within_link {region : Nat → Nat} {h : Arena ν link} (hr : Regions region h)
    {a k : Nat} {c : ν} (hc : h.cells[a]? = some c) (hk : region a = k) :
    Within region h k (link c) :=
  fun i hi => ⟨lt_trans (h.descends hc hi) (lt_size hc), (hr a c i hc hi).trans hk⟩

/-- Overwriting changes no link. -/
theorem Regions.set {region : Nat → Nat} {h : Arena ν link} (hr : Regions region h) {a : Nat}
    {c : ν} (hc : ∀ old, h.cells[a]? = some old → link c = link old) :
    Regions region (h.set a c hc) := by
  intro b c' i hget hi
  rcases eq_or_ne a b with rfl | hne
  · have hlt : a < h.size := by
      have := lt_size hget
      rwa [Arena.size, Arena.set, List.length_set] at this
    obtain ⟨old, hold⟩ := exists_cell hlt
    have hself : (h.set a c hc).cells[a]? = some c := List.getElem?_set_self hlt
    rw [hself] at hget
    cases hget
    exact hr a old i hold ((hc old hold).symm.trans hi)
  · have hother : (h.set a c hc).cells[b]? = h.cells[b]? := List.getElem?_set_ne hne
    rw [hother] at hget
    exact hr b c' i hget hi

theorem chain_congr_region {region : Nat → Nat} {h h' : Arena ν link} {k : Nat} {p : Option Nat}
    (hr : Regions region h) (hcells : ∀ a < h.size, region a = k → h'.cells[a]? = h.cells[a]?)
    (hp : Within region h k p) : h'.chain p = h.chain p :=
  chain_congr (D := fun a => a < h.size ∧ region a = k) (fun a ha => hcells a ha.1 ha.2)
    (fun _ _ i ha hc hi => hr.within_link hc ha.2 i hi) p hp

/-- The region of everything that is added later is `k`. -/
def extend (region : Nat → Nat) (size k a : Nat) : Nat := if a < size then region a else k

/-- The regions of an arena are those of its own cells. -/
theorem Regions.extend {region : Nat → Nat} {h : Arena ν link} (hr : Regions region h) (k : Nat) :
    Regions (extend region h.size k) h := by
  intro a c i hc hi
  have ha := lt_size hc
  rw [Arena.extend, Arena.extend, if_pos ha, if_pos (lt_trans (h.descends hc hi) ha),
    hr a c i hc hi]

theorem Within.extend {region : Nat → Nat} {h : Arena ν link} {k : Nat} {p : Option Nat}
    (hp : Within region h k p) (j : Nat) : Within (extend region h.size j) h k p :=
  fun a ha => ⟨(hp a ha).1, (if_pos (hp a ha).1).trans (hp a ha).2⟩

theorem extend_of_lt {region : Nat → Nat} {size k a : Nat} (h : a < size) :
    extend region size k a = region a := if_pos h

theorem extend_of_le {region : Nat → Nat} {size k a : Nat} (h : size ≤ a) :
    extend region size k a = k := if_neg (Nat.not_lt.mpr h)

end Arena

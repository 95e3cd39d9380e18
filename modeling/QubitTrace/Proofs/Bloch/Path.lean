import Mathlib
import QubitTrace.Proofs.Timeline.Ball

/-! # Paths between points of the sphere

The points of a path lie on the chord between its ends before they are moved out to the sphere. The
chord is inside the ball, and by the parallelogram law (`sq_length_between`) it meets the centre in
one case only: in the middle, between opposite ends (`norm_between_eq_zero_iff`). The centre has no
direction and is not moved, so an odd number of points between opposite ends passes through it.
-/

namespace QubitTrace
set_option autoImplicit false

namespace BlochVector

variable {v w : BlochVector ℝ} {t : ℝ}

/-- The point on the other side of the centre. -/
noncomputable def opposite (v : BlochVector ℝ) : BlochVector ℝ := ⟨-v.x, -v.y, -v.z⟩

theorem norm_eq_iff {r : ℝ} (nonneg : 0 ≤ r) :
    v.norm = r ↔ v.x ^ 2 + v.y ^ 2 + v.z ^ 2 = r ^ 2 := by
  rw [norm_eq, Real.sqrt_eq_iff_eq_sq (by positivity) nonneg]

theorem norm_eq_zero_iff : v.norm = 0 ↔ v = ⟨0, 0, 0⟩ := by
  rw [norm_eq_iff le_rfl]
  constructor
  · intro none
    have x := sq_nonneg v.x
    have y := sq_nonneg v.y
    have z := sq_nonneg v.z
    rw [zero_pow two_ne_zero] at none
    apply ext
    · exact sq_eq_zero_iff.1 (by linarith)
    · exact sq_eq_zero_iff.1 (by linarith)
    · exact sq_eq_zero_iff.1 (by linarith)
  · rintro rfl
    norm_num

/-! ## Moving out to the sphere -/

theorem normalized_of_norm_eq_zero (centre : v.norm = 0) : v.normalized = v :=
  if_pos (decide_eq_true centre)

theorem normalized_of_norm_ne_zero (away : v.norm ≠ 0) :
    v.normalized = ⟨v.x / v.norm, v.y / v.norm, v.z / v.norm⟩ :=
  if_neg (by simpa using decide_eq_false away)

/-- Every point but the centre is moved out to the sphere. -/
theorem norm_normalized (away : v.norm ≠ 0) : v.normalized.norm = 1 := by
  have length : v.x ^ 2 + v.y ^ 2 + v.z ^ 2 = v.norm ^ 2 :=
    (norm_eq_iff (norm_eq v ▸ Real.sqrt_nonneg _)).1 rfl
  rw [normalized_of_norm_ne_zero away, norm_eq_iff zero_le_one, div_pow, div_pow, div_pow,
    ← add_div, ← add_div, length, div_self (pow_ne_zero 2 away), one_pow]

/-- A point of the sphere stays where it is. -/
theorem normalized_of_unit (unit : v.norm = 1) : v.normalized = v := by
  rw [normalized_of_norm_ne_zero (unit ▸ one_ne_zero), unit, div_one, div_one, div_one]

/-! ## The chord -/

theorem between_zero : v.between w 0 = v := by
  apply ext <;> simp [between]

theorem between_one : v.between w 1 = w := by
  apply ext <;> simp [between]

/-- How far a point of the chord is inside the sphere. -/
theorem sq_length_between (start : v.norm = 1) (stop : w.norm = 1) :
    (v.between w t).x ^ 2 + (v.between w t).y ^ 2 + (v.between w t).z ^ 2 =
      1 - t * (1 - t) * ((w.x - v.x) ^ 2 + (w.y - v.y) ^ 2 + (w.z - v.z) ^ 2) := by
  have first := (norm_eq_iff zero_le_one).1 start
  have last := (norm_eq_iff zero_le_one).1 stop
  simp only [between]
  linear_combination (1 - t) * first + t * last

/-- The chord meets the centre in the middle between opposite points only. -/
theorem norm_between_eq_zero_iff (start : v.norm = 1) (stop : w.norm = 1) :
    (v.between w t).norm = 0 ↔ w = v.opposite ∧ t = 1 / 2 := by
  have first := (norm_eq_iff zero_le_one).1 start
  have last := (norm_eq_iff zero_le_one).1 stop
  constructor
  · intro centre
    have inside := sq_length_between start stop (t := t)
    rw [(norm_eq_iff le_rfl).1 centre] at inside
    have parallelogram : (w.x - v.x) ^ 2 + (w.y - v.y) ^ 2 + (w.z - v.z) ^ 2 =
        4 - ((w.x + v.x) ^ 2 + (w.y + v.y) ^ 2 + (w.z + v.z) ^ 2) := by
      linear_combination 2 * first + 2 * last
    -- two terms that are not negative: how far the ends are from opposite, and `t` from the middle
    have apart : ((w.x + v.x) ^ 2 + (w.y + v.y) ^ 2 + (w.z + v.z) ^ 2) / 4 +
        (t - 1 / 2) ^ 2 * ((w.x - v.x) ^ 2 + (w.y - v.y) ^ 2 + (w.z - v.z) ^ 2) = 0 := by
      linear_combination parallelogram / 4 - inside
    obtain ⟨ends, share⟩ := (add_eq_zero_iff_of_nonneg (by positivity) (by positivity)).1 apart
    have sums : (w.x + v.x) ^ 2 + (w.y + v.y) ^ 2 + (w.z + v.z) ^ 2 = 0 := by linarith
    constructor
    · have zero : (⟨w.x + v.x, w.y + v.y, w.z + v.z⟩ : BlochVector ℝ) = ⟨0, 0, 0⟩ :=
        norm_eq_zero_iff.1 ((norm_eq_iff le_rfl).2 (by rw [sums]; norm_num))
      injection zero with x y z
      exact ext (eq_neg_of_add_eq_zero_left x) (eq_neg_of_add_eq_zero_left y)
        (eq_neg_of_add_eq_zero_left z)
    · rw [parallelogram, sums, sub_zero] at share
      have middle : t - 1 / 2 = 0 := sq_eq_zero_iff.1 (by linarith)
      linarith
  · rintro ⟨rfl, rfl⟩
    rw [norm_eq_zero_iff]
    apply ext <;> simp only [between, opposite] <;> ring

/-! ## The path -/

variable {points k : Nat}

theorem length_path (v w : BlochVector ℝ) (points : Nat) : (v.path w points).length = points := by
  match points with
  | 0 => rfl
  | 1 => rfl
  | last + 2 => rw [path, List.length_map, List.length_range]

theorem getElem?_path (several : 2 ≤ points) (lt : k < points) :
    (v.path w points)[k]? = some (v.between w (k / (points - 1 : Nat))).normalized := by
  obtain ⟨last, rfl⟩ := Nat.exists_eq_add_of_le' several
  rw [path, List.getElem?_map, List.getElem?_range lt]
  rfl

/-- The point before the middle of the list is halfway. -/
theorem share_eq_half_iff (several : 2 ≤ points) :
    (k : ℝ) / (points - 1 : Nat) = 1 / 2 ↔ 2 * k + 1 = points := by
  have positive : (0 : ℝ) < (points - 1 : Nat) := Nat.cast_pos.2 (by omega)
  rw [div_eq_div_iff positive.ne' two_ne_zero, one_mul]
  norm_cast
  omega

/-- **A path runs from its start to its stop on the sphere, unless it crosses the centre.** Between
two points of the unit sphere, a path of two or more points has as many as it was asked for, the
first is the start and the last is the stop. Every point is on the sphere, but for the middle one of
an odd number between opposite ends, which is the centre. -/
theorem path_of_unit (start : v.norm = 1) (stop : w.norm = 1) (several : 2 ≤ points) :
    (v.path w points).length = points ∧ (v.path w points).head? = some v ∧
      (v.path w points).getLast? = some w ∧
      ∀ k p, (v.path w points)[k]? = some p →
        (w = v.opposite ∧ 2 * k + 1 = points → p = ⟨0, 0, 0⟩) ∧
        (¬ (w = v.opposite ∧ 2 * k + 1 = points) → p.norm = 1) := by
  refine ⟨length_path v w points, ?_, ?_, ?_⟩
  · rw [List.head?_eq_getElem?, getElem?_path several (by omega), Nat.cast_zero, zero_div,
      between_zero, normalized_of_unit start]
  · have all : ((points - 1 : Nat) : ℝ) ≠ 0 := Nat.cast_ne_zero.2 (by omega)
    rw [List.getLast?_eq_getElem?, length_path, getElem?_path several (by omega), div_self all,
      between_one, normalized_of_unit stop]
  · intro k p found
    have lt : k < points := length_path v w points ▸ (List.getElem?_eq_some_iff.1 found).1
    rw [getElem?_path several lt, Option.some_inj] at found
    subst found
    have crosses := norm_between_eq_zero_iff start stop (t := k / (points - 1 : Nat))
    rw [share_eq_half_iff several] at crosses
    constructor
    · intro middle
      have centre := crosses.2 middle
      rw [normalized_of_norm_eq_zero centre]
      exact norm_eq_zero_iff.1 centre
    · intro elsewhere
      exact norm_normalized (mt crosses.1 elsewhere)

/-- From a pole to the equator in five points. -/
theorem path_of_unit_quarter :
    let v : BlochVector ℝ := ⟨0, 0, 1⟩
    let w : BlochVector ℝ := ⟨1, 0, 0⟩
    v.norm = 1 ∧ w.norm = 1 ∧ 2 ≤ 5 ∧ (v.path w 5).length = 5 ∧ (v.path w 5).head? = some v ∧
      (v.path w 5).getLast? = some w ∧
      ∀ k p, (v.path w 5)[k]? = some p →
        (w = v.opposite ∧ 2 * k + 1 = 5 → p = ⟨0, 0, 0⟩) ∧
        (¬ (w = v.opposite ∧ 2 * k + 1 = 5) → p.norm = 1) := by
  intro v w
  have start : v.norm = 1 := (norm_eq_iff zero_le_one).2 (by norm_num [v])
  have stop : w.norm = 1 := (norm_eq_iff zero_le_one).2 (by norm_num [w])
  exact ⟨start, stop, by decide, path_of_unit start stop (by decide)⟩

/-- Not every point is on the sphere: from one pole to the other in three points. -/
theorem not_forall_path_on_sphere :
    ¬ ∀ (v w : BlochVector ℝ) (points : Nat), v.norm = 1 → w.norm = 1 → 2 ≤ points →
      (v.path w points).length = points ∧ (v.path w points).head? = some v ∧
        (v.path w points).getLast? = some w ∧ ∀ p ∈ v.path w points, p.norm = 1 := by
  intro always
  have start : (⟨0, 0, 1⟩ : BlochVector ℝ).norm = 1 := (norm_eq_iff zero_le_one).2 (by norm_num)
  have stop : (⟨0, 0, -1⟩ : BlochVector ℝ).norm = 1 := (norm_eq_iff zero_le_one).2 (by norm_num)
  obtain ⟨-, -, -, outside⟩ := always _ _ 3 start stop (by decide)
  have several : 2 ≤ 3 := by decide
  have middle := getElem?_path (v := ⟨0, 0, 1⟩) (w := ⟨0, 0, -1⟩) (k := 1) several (by decide)
  have centre := (norm_between_eq_zero_iff start stop (t := (1 : Nat) / (3 - 1 : Nat))).2
    ⟨by simp [opposite], (share_eq_half_iff (by decide)).2 rfl⟩
  rw [normalized_of_norm_eq_zero centre] at middle
  have unit := outside _ (List.mem_of_getElem? middle)
  rw [centre] at unit
  exact zero_ne_one unit

end BlochVector

end QubitTrace

import Mathlib.Data.Nat.Log
import ReversePolish.Proofs.Binary64.Text
import ReversePolish.Proofs.Numeral.Figures

/-!
# The shortest decimal of a double

The numbers that are read as one double have no gaps (`ReadsAs.between`). So on the multiples of a
power of ten only the two neighbours of the exact value matter (`ReadsAs.neighbour`), and a decimal
of few digits, which is a multiple of a coarse power of ten, is found on its place if there is one.
Everything is counted in units of `10 ^ -1074`, in which the exact value is a natural number.

* `nearestOn_of_nearestOnPlace?`: on its place the multiple that is taken is the nearest one.
* `exists_found`: the search ends on the coarsest place where there is a multiple.
* `Found.fewest`: nothing with fewer digits is read as the double.
* `Found.nearest`: nothing with as few digits is nearer.
-/

namespace ReversePolish.Binary64

variable {x : Binary64} {p c m k : Nat} {j : Int} {u v w : ℚ}

/-! ## The numbers that are read as a double -/

/-- A number of units of `10 ^ -1074` is read as the magnitude of `x`. -/
def ReadsAs (x : Binary64) (u : ℚ) : Prop := RoundsToCode (u / 5 ^ 1074) x.magnitude

theorem fives_pos : (0 : ℚ) < 5 ^ 1074 := pow_pos (by norm_num) _

theorem ReadsAs.between (hu : x.ReadsAs u) (hw : x.ReadsAs w) (huv : u ≤ v) (hvw : v ≤ w) :
    x.ReadsAs v :=
  RoundsToCode.between hu hw (div_le_div_of_nonneg_right huv fives_pos.le)
    (div_le_div_of_nonneg_right hvw fives_pos.le)

theorem readsAs_decimalUnits (x : Binary64) : x.ReadsAs x.decimalUnits := by
  rw [ReadsAs, decimalUnits, decimalUnitsPerUnit_eq, Nat.cast_mul, Nat.cast_pow, Nat.cast_ofNat,
    mul_div_cancel_left₀ _ fives_pos.ne']
  exact roundsToCode_units x.magnitude

/-- What lies between the exact value and a number that is read as `x` is read as `x` too, and is
not further away. -/
theorem ReadsAs.nearer (hu : x.ReadsAs u)
    (hBetween : (u ≤ v ∧ v ≤ x.decimalUnits) ∨ (x.decimalUnits ≤ v ∧ v ≤ u)) :
    x.ReadsAs v ∧ |v - x.decimalUnits| ≤ |u - x.decimalUnits| := by
  rcases hBetween with ⟨hLow, hHigh⟩ | ⟨hLow, hHigh⟩
  · refine ⟨hu.between x.readsAs_decimalUnits hLow hHigh, ?_⟩
    rw [abs_of_nonpos (by linarith), abs_of_nonpos (by linarith)]
    linarith
  · refine ⟨x.readsAs_decimalUnits.between hu hLow hHigh, ?_⟩
    rw [abs_of_nonneg (by linarith), abs_of_nonneg (by linarith)]
    linarith

/-- The number of units of `10 ^ -1074`. -/
def inUnits (q : ℚ) : ℚ := q * 10 ^ (1074 : Int)

theorem inUnits_decimal (c p : Nat) : inUnits (c * 10 ^ placeExponent p) = c * 10 ^ p := by
  have hTen : (10 : ℚ) ≠ 0 := by norm_num
  rw [inUnits, mul_assoc, placeExponent, ← zpow_add₀ hTen, sub_add_cancel, zpow_natCast]

theorem inUnits_codeValue (x : Binary64) : inUnits (codeValue x.magnitude) = x.decimalUnits := by
  rw [← size_decimalUnits, inUnits_decimal, pow_zero, mul_one]

theorem abs_inUnits_sub (a b : ℚ) : |inUnits a - inUnits b| = |a - b| * 10 ^ (1074 : Int) := by
  have hScale : (0 : ℚ) < 10 ^ (1074 : Int) := zpow_pos (by norm_num) _
  rw [inUnits, inUnits, ← sub_mul, abs_mul, abs_of_pos hScale]

theorem readsAs_inUnits_iff (q : ℚ) :
    x.ReadsAs (inUnits q) ↔ RoundsToCode (q * 2 ^ 1074) x.magnitude := by
  have hTen : (10 : ℚ) ^ (1074 : Int) = 2 ^ 1074 * 5 ^ 1074 := by
    rw [← mul_pow]
    norm_num
  rw [ReadsAs, inUnits, hTen, ← mul_assoc, mul_div_cancel_right₀ _ fives_pos.ne']

theorem readsBack_iff (hFinite : x.isFinite = true) :
    x.readsBack p c = true ↔ x.ReadsAs (c * 10 ^ p) := by
  have hMagnitude : x.magnitude < infinityCode := by simpa [isFinite] using hFinite
  obtain ⟨code, hCode, hMin⟩ := Decimal.nearestCode_spec c (placeExponent p)
  rw [← inUnits_decimal, readsAs_inUnits_iff, readsBack, beq_iff_eq, hMin]
  constructor
  · intro hSame
    obtain rfl : code = x.magnitude := by omega
    exact hCode
  · intro hReads
    rw [hCode.unique hReads]
    omega

/-! ## The two neighbours on a place -/

theorem lower_mul_le (x : Binary64) (p : Nat) :
    ((x.decimalUnits / 10 ^ p : Nat) : ℚ) * 10 ^ p ≤ x.decimalUnits := by
  exact_mod_cast Nat.div_mul_le_self x.decimalUnits (10 ^ p)

theorem lt_upper_mul (x : Binary64) (p : Nat) :
    (x.decimalUnits : ℚ) < ((x.decimalUnits / 10 ^ p + 1 : Nat) : ℚ) * 10 ^ p := by
  have hPlace : 0 < 10 ^ p := Nat.pow_pos (by decide)
  exact_mod_cast (Nat.div_lt_iff_lt_mul hPlace).mp (Nat.lt_succ_self (x.decimalUnits / 10 ^ p))

/-- With a multiple of the place that is read as `x`, the neighbour of `x` on its side is read as
`x` too, and is not further away. -/
theorem ReadsAs.neighbour (h : x.ReadsAs (m * 10 ^ p)) :
    ∃ c, (c = x.decimalUnits / 10 ^ p ∨ c = x.decimalUnits / 10 ^ p + 1) ∧
      x.ReadsAs (c * 10 ^ p) ∧
      |(c * 10 ^ p : ℚ) - x.decimalUnits| ≤ |(m * 10 ^ p : ℚ) - x.decimalUnits| := by
  have hPlace : (0 : ℚ) ≤ 10 ^ p := pow_nonneg (by norm_num) p
  rcases Nat.lt_or_ge (x.decimalUnits / 10 ^ p) m with hAbove | hBelow
  · have hLess : ((x.decimalUnits / 10 ^ p + 1 : Nat) : ℚ) * 10 ^ p ≤ m * 10 ^ p :=
      mul_le_mul_of_nonneg_right (by exact_mod_cast hAbove) hPlace
    exact ⟨_, Or.inr rfl, h.nearer (Or.inr ⟨(x.lt_upper_mul p).le, hLess⟩)⟩
  · have hLess : (m * 10 ^ p : ℚ) ≤ ((x.decimalUnits / 10 ^ p : Nat) : ℚ) * 10 ^ p :=
      mul_le_mul_of_nonneg_right (by exact_mod_cast hBelow) hPlace
    exact ⟨_, Or.inl rfl, h.nearer (Or.inl ⟨hLess, x.lower_mul_le p⟩)⟩

/-- The multiple `c` of the place is read as `x`, and so is none that is nearer. -/
structure NearestOn (x : Binary64) (p c : Nat) : Prop where
  place_le : 10 ^ p ≤ x.decimalUnits
  le_upper : c ≤ x.decimalUnits / 10 ^ p + 1
  reads : x.ReadsAs (c * 10 ^ p)
  nearest : ∀ m : Nat, x.ReadsAs (m * 10 ^ p) →
    |(c * 10 ^ p : ℚ) - x.decimalUnits| ≤ |(m * 10 ^ p : ℚ) - x.decimalUnits|

/-- It is enough to look at the two neighbours. -/
theorem nearestOn_of_neighbours (hPlace : 10 ^ p ≤ x.decimalUnits)
    (hUpper : c ≤ x.decimalUnits / 10 ^ p + 1) (hReads : x.ReadsAs (c * 10 ^ p))
    (hNearest : ∀ d : Nat, d = x.decimalUnits / 10 ^ p ∨ d = x.decimalUnits / 10 ^ p + 1 →
      x.ReadsAs (d * 10 ^ p) →
        |(c * 10 ^ p : ℚ) - x.decimalUnits| ≤ |(d * 10 ^ p : ℚ) - x.decimalUnits|) :
    NearestOn x p c := by
  refine ⟨hPlace, hUpper, hReads, ?_⟩
  intro m hm
  obtain ⟨d, hNeighbour, hRead, hNear⟩ := hm.neighbour
  exact (hNearest d hNeighbour hRead).trans hNear

/-- What is left of `x` above its lower neighbour. -/
theorem decimalUnits_eq (x : Binary64) (p : Nat) :
    (x.decimalUnits : ℚ) =
      ((x.decimalUnits / 10 ^ p : Nat) : ℚ) * 10 ^ p + (x.decimalUnits % 10 ^ p : Nat) := by
  exact_mod_cast (Nat.div_add_mod' x.decimalUnits (10 ^ p)).symm

theorem abs_lower_sub (x : Binary64) (p : Nat) :
    |((x.decimalUnits / 10 ^ p : Nat) : ℚ) * 10 ^ p - x.decimalUnits| =
      (x.decimalUnits % 10 ^ p : Nat) := by
  have hSplit := x.decimalUnits_eq p
  rw [abs_of_nonpos (by linarith [x.lower_mul_le p])]
  linarith

theorem abs_upper_sub (x : Binary64) (p : Nat) :
    |((x.decimalUnits / 10 ^ p + 1 : Nat) : ℚ) * 10 ^ p - x.decimalUnits| =
      10 ^ p - (x.decimalUnits % 10 ^ p : Nat) := by
  have hSplit := x.decimalUnits_eq p
  rw [abs_of_nonneg (by linarith [x.lt_upper_mul p])]
  push_cast
  linarith

/-- The lower neighbour is the nearer one below the middle, and the upper one from there on. -/
theorem lower_nearer_iff (x : Binary64) (p : Nat) :
    2 * (x.decimalUnits % 10 ^ p) < 10 ^ p ↔
      |((x.decimalUnits / 10 ^ p : Nat) : ℚ) * 10 ^ p - x.decimalUnits| <
        |((x.decimalUnits / 10 ^ p + 1 : Nat) : ℚ) * 10 ^ p - x.decimalUnits| := by
  rw [abs_lower_sub, abs_upper_sub, lt_sub_iff_add_lt, ← two_mul]
  exact_mod_cast Iff.rfl

theorem nearestOn_of_nearestOnPlace? (hFinite : x.isFinite = true)
    (h : x.nearestOnPlace? p = some c) : NearestOn x p c := by
  obtain ⟨hPlace, hRead, ⟨rfl, hUpper⟩ | ⟨rfl, hLower⟩⟩ := nearestOnPlace?_cases h
  · rw [readsBack_iff hFinite, lower_nearer_iff] at hUpper
    refine nearestOn_of_neighbours hPlace (Nat.le_succ _) ((readsBack_iff hFinite).mp hRead) ?_
    rintro d (rfl | rfl) hd
    · exact le_rfl
    · exact (hUpper hd).le
  · rw [readsBack_iff hFinite, lower_nearer_iff, not_lt] at hLower
    refine nearestOn_of_neighbours hPlace le_rfl ((readsBack_iff hFinite).mp hRead) ?_
    rintro d (rfl | rfl) hd
    · exact hLower hd
    · exact le_rfl

/-- On a place that is not above the leading digit a multiple that is read as `x` is enough. -/
theorem exists_nearestOnPlace? (hFinite : x.isFinite = true) (hPlace : 10 ^ p ≤ x.decimalUnits)
    (hReads : x.ReadsAs (m * 10 ^ p)) : ∃ c, x.nearestOnPlace? p = some c := by
  have hTen : Nat.pow 10 p = 10 ^ p := Nat.pow_eq
  have hNonzero : x.decimalUnits / 10 ^ p ≠ 0 := (Nat.div_pos hPlace (Nat.pow_pos (by decide))).ne'
  obtain ⟨d, hNeighbour, hRead, -⟩ := hReads.neighbour
  rw [← readsBack_iff hFinite] at hRead
  unfold nearestOnPlace?
  rw [hTen]
  dsimp only
  rw [if_neg hNonzero]
  split
  · exact ⟨_, rfl⟩
  · exact ⟨_, rfl⟩
  · exact ⟨_, rfl⟩
  · rename_i hLower hUpper
    rcases hNeighbour with rfl | rfl
    · rw [hLower] at hRead
      cases hRead
    · rw [hUpper] at hRead
      cases hRead

/-! ## The coarsest place -/

/-- If `a` bits fit into `b` places, then every number of bits fits in proportion. -/
theorem two_pow_le_ten_pow {a b : Nat} (hBits : 2 ^ a ≤ 10 ^ b) (hPositive : 0 < a) (hLess : b ≤ a)
    (l : Nat) : 2 ^ (l + 1) ≤ 10 ^ (l * b / a + 2) := by
  have hPlaces : b * (l + 1) ≤ (l * b / a + 2) * a := by
    have hQuotient : l * b < a * (l * b / a + 1) := Nat.lt_mul_div_succ (l * b) hPositive
    calc b * (l + 1) = l * b + b := by ring
      _ ≤ a * (l * b / a + 1) + a := Nat.add_le_add hQuotient.le hLess
      _ = (l * b / a + 2) * a := by ring
  apply le_of_pow_le_pow_left₀ hPositive.ne' (Nat.zero_le _)
  calc (2 ^ (l + 1)) ^ a = (2 ^ a) ^ (l + 1) := by rw [← pow_mul, ← pow_mul, mul_comm]
    _ ≤ (10 ^ b) ^ (l + 1) := Nat.pow_le_pow_left hBits _
    _ = 10 ^ (b * (l + 1)) := (pow_mul 10 b (l + 1)).symm
    _ ≤ 10 ^ ((l * b / a + 2) * a) := Nat.pow_le_pow_right (by decide) hPlaces
    _ = (10 ^ (l * b / a + 2)) ^ a := pow_mul 10 _ a

/-- The number of places that is searched holds all digits. -/
theorem lt_ten_pow_placesFor (n : Nat) : n < 10 ^ placesFor n := by
  have hBits : 2 ^ 100000 ≤ 10 ^ 30103 := by decide +kernel
  exact Nat.lt_log2_self.trans_le (two_pow_le_ten_pow hBits (by decide) (by decide) n.log2)

/-- The place and the multiple with which the search below `n` ends. -/
structure FoundBelow (x : Binary64) (n p c : Nat) : Prop where
  found : x.nearestOnPlace? p = some c
  coarsest : ∀ k, p < k → k < n → x.nearestOnPlace? k = none
  decimal_eq : x.shortestBelow n = ⟨x.negative, c, placeExponent p⟩

/-- On the finest place the exact value is a multiple, so the search does not miss. -/
theorem exists_foundBelow (hFinite : x.isFinite = true) (hPositive : 0 < x.decimalUnits) (n : Nat) :
    ∃ p c, FoundBelow x (n + 1) p c := by
  induction n with
  | zero =>
    have hExact : x.ReadsAs (x.decimalUnits * 10 ^ 0) := by
      rw [pow_zero, mul_one]
      exact x.readsAs_decimalUnits
    obtain ⟨c, hFound⟩ := exists_nearestOnPlace? hFinite hPositive hExact
    refine ⟨0, c, hFound, by omega, ?_⟩
    rw [shortestBelow_succ, hFound]
  | succ n ih =>
    cases hFound : x.nearestOnPlace? (n + 1) with
    | some c =>
      refine ⟨n + 1, c, hFound, by omega, ?_⟩
      rw [shortestBelow_succ, hFound]
    | none =>
      obtain ⟨p, c, h⟩ := ih
      refine ⟨p, c, h.found, ?_, ?_⟩
      · intro k hAbove hBelow
        by_cases hLast : k = n + 1
        · rw [hLast, hFound]
        · exact h.coarsest k hAbove (by omega)
      · rw [shortestBelow_succ, hFound]
        exact h.decimal_eq

/-- What the search for the shortest decimal of `x` finds. -/
structure Found (x : Binary64) (p c : Nat) : Prop where
  nearestOn : NearestOn x p c
  coarsest : ∀ {m k : Nat}, 10 ^ k ≤ x.decimalUnits → x.ReadsAs (m * 10 ^ k) → k ≤ p
  shortest_eq : x.shortest = ⟨x.negative, c, placeExponent p⟩

theorem exists_found (hFinite : x.isFinite = true) (hPositive : 0 < x.decimalUnits) :
    ∃ p c, Found x p c := by
  obtain ⟨p, c, h⟩ := exists_foundBelow hFinite hPositive (placesFor x.decimalUnits - 1)
  have hPlaces : placesFor x.decimalUnits - 1 + 1 = placesFor x.decimalUnits := rfl
  rw [hPlaces] at h
  refine ⟨p, c, nearestOn_of_nearestOnPlace? hFinite h.found, ?_, h.decimal_eq⟩
  intro m k hPlace hReads
  by_contra hAbove
  have hBelow : k < placesFor x.decimalUnits :=
    (Nat.pow_lt_pow_iff_right (by decide)).mp (hPlace.trans_lt (lt_ten_pow_placesFor _))
  obtain ⟨d, hFound⟩ := exists_nearestOnPlace? hFinite hPlace hReads
  rw [h.coarsest k (Nat.not_le.mp hAbove) hBelow] at hFound
  cases hFound

/-! ## No decimal is shorter, and none as short is nearer -/

/-- The place of the leading digit. -/
def leadingPlace (x : Binary64) : Nat := Nat.log 10 x.decimalUnits

theorem pow_leadingPlace_le (hPositive : 0 < x.decimalUnits) :
    10 ^ x.leadingPlace ≤ x.decimalUnits :=
  Nat.pow_log_le_self 10 hPositive.ne'

theorem lt_pow_leadingPlace (x : Binary64) : x.decimalUnits < 10 ^ (x.leadingPlace + 1) :=
  Nat.lt_pow_succ_log_self (by decide) _

theorem ReadsAs.ne_zero (hPositive : 0 < x.decimalUnits) (h : x.ReadsAs u) : u ≠ 0 := by
  rintro rfl
  have hZero : RoundsToCode (0 / 5 ^ 1074) 0 := roundsToCode_zero (by norm_num)
  have hMagnitude : x.magnitude = 0 := RoundsToCode.unique h hZero
  rw [decimalUnits, hMagnitude] at hPositive
  exact absurd hPositive (by simp)

/-- A multiple of a coarse place is a multiple of every finer one. -/
theorem exists_mul_pow_eq (m : Nat) (hPlace : (p : Int) ≤ j) :
    ∃ d : Nat, (m * 10 ^ j : ℚ) = d * 10 ^ p := by
  obtain ⟨t, ht⟩ := Int.le.dest hPlace
  refine ⟨m * 10 ^ t, ?_⟩
  rw [← ht, zpow_add₀ (by norm_num), zpow_natCast, zpow_natCast]
  push_cast
  ring

/-- A number of `k` digits that reaches the leading place is a multiple of a place next to it. -/
theorem lt_add_of_pow_le (hm : m < 10 ^ k) (hReaches : (10 : ℚ) ^ p ≤ m * 10 ^ j) :
    (p : Int) < k + j := by
  have hTen : (0 : ℚ) < 10 ^ j := zpow_pos (by norm_num) j
  have hLess : (m * 10 ^ j : ℚ) < 10 ^ k * 10 ^ j :=
    mul_lt_mul_of_pos_right (by exact_mod_cast hm) hTen
  rw [← zpow_natCast, ← zpow_add₀ (by norm_num)] at hLess
  rw [← zpow_natCast] at hReaches
  exact (zpow_lt_zpow_iff_right₀ (by norm_num)).mp (hReaches.trans_lt hLess)

/-- What is read as `x` and does not reach the leading place has a power of ten before it. -/
theorem ReadsAs.pow_leadingPlace (hPositive : 0 < x.decimalUnits) (hReads : x.ReadsAs u)
    (hLess : u < 10 ^ x.leadingPlace) :
    x.ReadsAs ((1 : Nat) * 10 ^ x.leadingPlace) ∧
      |((1 : Nat) * 10 ^ x.leadingPlace : ℚ) - x.decimalUnits| ≤ |u - x.decimalUnits| := by
  have hLeading : (10 : ℚ) ^ x.leadingPlace ≤ x.decimalUnits := by
    exact_mod_cast pow_leadingPlace_le hPositive
  rw [Nat.cast_one, one_mul]
  exact hReads.nearer (Or.inl ⟨hLess.le, hLeading⟩)

namespace Found

theorem le_leadingPlace (h : Found x p c) : p ≤ x.leadingPlace :=
  Nat.le_log_of_pow_le (by decide) h.nearestOn.place_le

theorem eq_leadingPlace (h : Found x p c) (hPositive : 0 < x.decimalUnits) (hReads : x.ReadsAs u)
    (hLess : u < 10 ^ x.leadingPlace) : p = x.leadingPlace :=
  Nat.le_antisymm h.le_leadingPlace
    (h.coarsest (pow_leadingPlace_le hPositive) (hReads.pow_leadingPlace hPositive hLess).1)

/-- What is found has no more digits than there are places from its own to the leading one. -/
theorem hasFigures (h : Found x p c) (hk : x.leadingPlace + 1 ≤ k + p) :
    HasFigures (c * 10 ^ p : ℚ) k := by
  have hLeading := h.le_leadingPlace
  have hLess : x.decimalUnits / 10 ^ p < 10 ^ k := by
    rw [Nat.div_lt_iff_lt_mul (Nat.pow_pos (by decide)), ← Nat.pow_add]
    exact x.lt_pow_leadingPlace.trans_le (Nat.pow_le_pow_right (by decide) hk)
  rcases (h.nearestOn.le_upper.trans hLess).lt_or_eq with hFits | hCarry
  · exact ⟨c, p, hFits, by rw [zpow_natCast]⟩
  · -- the upper neighbour of nines is a power of ten
    refine ⟨1, (k + p : Nat), Nat.one_lt_pow (by omega) (by decide), ?_⟩
    rw [hCarry, zpow_natCast, pow_add]
    push_cast
    ring

/-- Nothing with fewer digits is read as `x`. -/
theorem fewest (h : Found x p c) (hPositive : 0 < x.decimalUnits) (hm : m < 10 ^ k)
    (hReads : x.ReadsAs (m * 10 ^ j)) : HasFigures (c * 10 ^ p : ℚ) k := by
  apply h.hasFigures
  by_contra hFew
  have hDigit : k ≠ 0 := by
    rintro rfl
    obtain rfl : m = 0 := by omega
    exact hReads.ne_zero hPositive (by simp)
  rcases lt_or_ge (m * 10 ^ j : ℚ) (10 ^ x.leadingPlace) with hLess | hReaches
  · have := h.eq_leadingPlace hPositive hReads hLess
    omega
  · -- a multiple of the place above is read as `x`
    have hCoarse := lt_add_of_pow_le hm hReaches
    obtain ⟨d, hMultiple⟩ := exists_mul_pow_eq (p := p + 1) (j := j) m (by omega)
    rw [hMultiple] at hReads
    have hPlace : 10 ^ (p + 1) ≤ x.decimalUnits :=
      (Nat.pow_le_pow_right (by decide) (by omega)).trans (pow_leadingPlace_le hPositive)
    have := h.coarsest hPlace hReads
    omega

/-- Nothing with as few digits is read as `x` and is nearer. -/
theorem nearest (h : Found x p c) (hPositive : 0 < x.decimalUnits)
    (hk : k + p ≤ x.leadingPlace + 1) (hm : m < 10 ^ k) (hReads : x.ReadsAs (m * 10 ^ j)) :
    |(c * 10 ^ p : ℚ) - x.decimalUnits| ≤ |(m * 10 ^ j : ℚ) - x.decimalUnits| := by
  rcases lt_or_ge (m * 10 ^ j : ℚ) (10 ^ x.leadingPlace) with hLess | hReaches
  · obtain ⟨hPower, hNear⟩ := hReads.pow_leadingPlace hPositive hLess
    have hPlace := h.eq_leadingPlace hPositive hReads hLess
    rw [← hPlace] at hPower hNear
    exact (h.nearestOn.nearest 1 hPower).trans hNear
  · have hCoarse := lt_add_of_pow_le hm hReaches
    obtain ⟨d, hMultiple⟩ := exists_mul_pow_eq (p := p) (j := j) m (by omega)
    rw [hMultiple] at hReads ⊢
    exact h.nearestOn.nearest d hReads

end Found

end ReversePolish.Binary64

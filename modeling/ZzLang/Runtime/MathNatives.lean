import Mathlib.Algebra.Order.Antidiag.Nat
import Mathlib.Algebra.Order.Ring.Int
import Mathlib.Tactic.Linarith
import ZzLang.Library.SignedWords
import ZzLang.Runtime.Binary
import ZzLang.Runtime.Doubles

/-!
# Roots and divisors of integers

The natives for integers of the standard library's `math`. An operator whose result does not fit is
a panic in a debug build and wraps around in a release build, so the build is an argument, and a
native computes without overflow if it does not panic in a debug build.

Newton's iteration for the root starts at `n` and adds one to it first, which does not fit for the
largest integer alone. The divisors take their arguments as doubles, which keep 53 bits: they are
those of the rounded arguments.
-/

namespace ZzLang.Runtime

open SignedWords

/-- What a build does about an overflow. -/
inductive Build where
  /-- An overflow is a panic. -/
  | debug
  /-- An overflow wraps around. -/
  | release
  deriving DecidableEq

instance (n : ℤ) : Decidable (Fits n) :=
  inferInstanceAs (Decidable (_ ∧ _))

/-- The word for the exact result of an operator. -/
def Build.word (build : Build) (n : ℤ) : Except Failure Int64 :=
  if build = .debug ∧ ¬ Fits n then .error .panic else .ok (Int64.ofInt n)

/-- The operator `/`. -/
def divWord (a b : Int64) : Except Failure Int64 :=
  if b = 0 ∨ a = minInt ∧ b = -1 then .error .panic else .ok (a / b)

/-- The loop of `math_isqrt`. -/
def isqrtLoop (build : Build) (n x y : Int64) : Except Failure Int64 :=
  if y < x then do
    let sum ← build.word (y.toInt + (← divWord n y).toInt)
    isqrtLoop build n y (← divWord sum 2)
  else .ok x
termination_by (x.toInt + 2 ^ 63).toNat
decreasing_by
  have hlt := Int64.lt_iff_toInt_lt.mp ‹y < x›
  have := y.le_toInt
  omega

/-- `math_isqrt`. -/
def mathIsqrt (build : Build) (args : List Value) : Except Failure Value :=
  match (args[0]? : Option Value) with
  | some (.int n) =>
    if n < 0 then .ok (.err (.str "isqrt: negative input"))
    else if n = 0 then .ok (.ok (.int 0))
    else do
      let y ← divWord (← build.word (n.toInt + 1)) 2
      return .ok (.int (← isqrtLoop build n n y))
  | some other =>
    .error (.error ("isqrt expects an integer, found \x60" ++ other.typeName ++ "\x60"))
  | none => .error (.error "missing argument for isqrt")

/-- `arg` and `expect_float`. -/
def expectFloat (display : Value → String) (args : List Value) (i : ℕ) (name : String) :
    Except Failure F64 :=
  match (args[i]? : Option Value) with
  | some (.int n) => .ok (F64.ofInt n.toInt)
  | some (.float x) => .ok x
  | some other =>
    .error (.error ("\x60" ++ name ++ "\x60 expects a number, found \x60" ++ display other ++ "\x60"))
  | none => .error (.error ("missing argument \x60" ++ name ++ "\x60 for native function"))

/-- `abs`. -/
def absWord (build : Build) (a : Int64) : Except Failure Int64 :=
  build.word |a.toInt|

theorem natAbs_rem_lt {a b : Int64} (hb : ¬ b = 0) : (a % b).toInt.natAbs < b.toInt.natAbs := by
  have hb' : b.toInt ≠ 0 := fun h => hb (Int64.toInt_inj.mp h)
  rw [Int64.toInt_mod, Int.natAbs_tmod]
  exact Nat.mod_lt _ (Int.natAbs_pos.mpr hb')

/-- `gcd`, and the loop of `math_gcd`. -/
def gcdLoop (a b : Int64) : Except Failure Int64 :=
  if _h : b = 0 then .ok a
  else if a = minInt ∧ b = -1 then .error .panic
  else gcdLoop b (a % b)
termination_by b.toInt.natAbs
decreasing_by exact natAbs_rem_lt _h

/-- `math_gcd`. -/
def mathGcd (build : Build) (display : Value → String) (args : List Value) :
    Except Failure Value := do
  let a := (← expectFloat display args 0 "gcd").toInt64
  let b := (← expectFloat display args 1 "gcd").toInt64
  let a ← absWord build a
  let b ← absWord build b
  return .int (← gcdLoop a b)

/-- `math_lcm`. -/
def mathLcm (build : Build) (display : Value → String) (args : List Value) :
    Except Failure Value := do
  let a := (← expectFloat display args 0 "lcm").toInt64
  let b := (← expectFloat display args 1 "lcm").toInt64
  if a = 0 ∨ b = 0 then return .int 0
  let a ← absWord build a
  let b ← absWord build b
  let quotient ← divWord a (← gcdLoop a b)
  return .int (← build.word (quotient.toInt * b.toInt))

/-! ### Roots -/

section Isqrt

variable {n x : ℤ}

/-- A step of Newton's iteration does not go below the root. -/
theorem lt_newton_sq (hx : 0 < x) (hn : 0 ≤ n) : n < ((x + n / x) / 2 + 1) ^ 2 := by
  have hq : n < x * (n / x + 1) := by
    have hdiv := Int.mul_ediv_add_emod n x
    have hmod := Int.emod_lt_of_pos n hx
    linarith [mul_add x (n / x) 1]
  have hq0 : 0 ≤ n / x := Int.ediv_nonneg hn hx.le
  have hhalf : x + n / x + 1 ≤ 2 * ((x + n / x) / 2 + 1) := by omega
  nlinarith [sq_nonneg (x - (n / x + 1)), hhalf, hq, hq0]

/-- A step that does not go down is at the root. -/
theorem sq_le_of_newton (hx : 0 < x) (h : x ≤ (x + n / x) / 2) : x * x ≤ n := by
  have hle : x ≤ n / x := by omega
  exact (Int.le_ediv_iff_mul_le hx).mp hle

/-- The sum in a step fits. -/
theorem newton_fits (hx : 1 ≤ x) (hxn : x ≤ n) : x + n / x ≤ n + 1 := by
  have hq : n / x * x ≤ n := Int.ediv_mul_le n (by omega)
  have hq1 : 1 ≤ n / x := (Int.le_ediv_iff_mul_le (by omega)).mpr (by omega)
  nlinarith [mul_nonneg (show 0 ≤ x - 1 by omega) (show 0 ≤ n / x - 1 by omega)]

end Isqrt

theorem word_of_fits (build : Build) {n : ℤ} (h : Fits n) : build.word n = .ok (Int64.ofInt n) :=
  if_neg fun hover => hover.2 h

theorem toInt_ofInt_of_fits {n : ℤ} (h : Fits n) : (Int64.ofInt n).toInt = n := by
  exact Int64.toInt_ofInt.trans (bmod_of_fits h)

/-- The quotient of numbers that are not negative, by one that is positive. -/
theorem divWord_of_pos {a b : Int64} (ha : 0 ≤ a.toInt) (hb : 0 < b.toInt) :
    divWord a b = .ok (a / b) ∧ (a / b).toInt = a.toInt / b.toInt := by
  refine ⟨if_neg ?_, toInt_div rfl rfl ha hb.le⟩
  rintro (rfl | ⟨rfl, -⟩)
  · exact absurd hb (by decide)
  · exact absurd ha (by decide)

/-- **The loop** ends at the root, and nothing overflows. -/
theorem isqrtLoop_spec (build : Build) {n x y : Int64} (hmax : n.toInt < 2 ^ 63 - 1)
    (hx : 1 ≤ x.toInt) (hxn : x.toInt ≤ n.toInt)
    (hy : y.toInt = (x.toInt + n.toInt / x.toInt) / 2) (hroot : n.toInt < (x.toInt + 1) ^ 2) :
    ∃ r, isqrtLoop build n x y = .ok r ∧
      r.toInt * r.toInt ≤ n.toInt ∧ n.toInt < (r.toInt + 1) * (r.toInt + 1) ∧ 0 ≤ r.toInt := by
  fun_induction isqrtLoop build n x y with
  | case1 x y hlt ih =>
    have hlt := Int64.lt_iff_toInt_lt.mp hlt
    have hn : 0 ≤ n.toInt := by omega
    have hq : 1 ≤ n.toInt / x.toInt := (Int.le_ediv_iff_mul_le (by omega)).mpr (by omega)
    have hy1 : 1 ≤ y.toInt := by omega
    have hyn : y.toInt ≤ n.toInt := by omega
    have hnext := newton_fits hy1 hyn
    have hqy : 0 ≤ n.toInt / y.toInt := Int.ediv_nonneg hn (by omega)
    obtain ⟨hdiv, hquot⟩ := divWord_of_pos (a := n) (b := y) hn (by omega)
    have hfits : Fits (y.toInt + (n / y).toInt) := by
      rw [hquot]
      constructor <;> omega
    have hsum := toInt_ofInt_of_fits hfits
    obtain ⟨htwo, hhalf⟩ := divWord_of_pos (a := Int64.ofInt (y.toInt + (n / y).toInt)) (b := 2)
      (by rw [hsum, hquot]; omega) (by decide)
    simp only [hdiv, word_of_fits build hfits, htwo, bind, Except.bind]
    refine ih _ hy1 hyn (by rw [hhalf, hsum, hquot]; rfl) ?_
    rw [hy]
    exact lt_newton_sq (by omega) hn
  | case2 x y hge =>
    refine ⟨x, rfl, sq_le_of_newton (by omega) ?_, ?_, by omega⟩
    · have := mt Int64.lt_iff_toInt_lt.mpr hge
      omega
    · rwa [← pow_two]

/-- The native returns the root, rounded down. -/
def ReturnsRoot (build : Build) (n : Int64) : Prop :=
  ∃ r : Int64, mathIsqrt build [.int n] = .ok (.ok (.int r)) ∧
    r.toInt * r.toInt ≤ n.toInt ∧ n.toInt < (r.toInt + 1) * (r.toInt + 1)

/-- **The root** is exact, and computed without overflow, for all integers but the largest. -/
theorem returnsRoot_iff (build : Build) {n : Int64} (hn : 0 ≤ n) :
    ReturnsRoot build n ↔ n ≠ Int64.maxValue := by
  constructor
  · rintro ⟨r, hr, hle, -⟩ rfl
    rcases build with _ | _
    · have hpanic : mathIsqrt .debug [.int Int64.maxValue] = .error .panic := rfl
      rw [hpanic] at hr
      cases hr
    · have hloop : isqrtLoop .release Int64.maxValue Int64.maxValue (-4611686018427387904) =
          .ok (-4611686018427387904) := by
        rw [isqrtLoop, if_pos (by decide)]
        change isqrtLoop .release Int64.maxValue (-4611686018427387904) (-2305843009213693952) = _
        rw [isqrtLoop, if_neg (by decide)]
      have hwraps : mathIsqrt .release [.int Int64.maxValue] =
          (isqrtLoop .release Int64.maxValue Int64.maxValue (-4611686018427387904)).map
            fun r => .ok (.int r) := rfl
      rw [hwraps, hloop] at hr
      obtain rfl : -4611686018427387904 = r := by simpa [Except.map] using hr
      exact absurd hle (by decide)
  · intro hmax
    have hn' : 0 ≤ n.toInt := Int64.le_iff_toInt_le.mp hn
    have hlt : n.toInt < 2 ^ 63 - 1 := by
      have hne : n.toInt ≠ 2 ^ 63 - 1 := fun h => hmax (Int64.toInt_inj.mp (h.trans (by decide)))
      have := n.toInt_lt
      omega
    by_cases hzero : n = 0
    · subst hzero
      exact ⟨0, rfl, by decide, by decide⟩
    have hpos : 1 ≤ n.toInt := by
      have hne : n.toInt ≠ 0 := fun h => hzero (Int64.toInt_inj.mp h)
      omega
    have hfits : Fits (n.toInt + 1) := ⟨by omega, by omega⟩
    have hsum := toInt_ofInt_of_fits hfits
    obtain ⟨htwo, hhalf⟩ := divWord_of_pos (a := Int64.ofInt (n.toInt + 1)) (b := 2)
      (by omega) (by decide)
    obtain ⟨r, hr, hle, hge, -⟩ := isqrtLoop_spec build (y := Int64.ofInt (n.toInt + 1) / 2) hlt hpos
      le_rfl (by rw [hhalf, hsum, Int.ediv_self (by omega)]; rfl) (by nlinarith)
    refine ⟨r, ?_, hle, hge⟩
    have hlist : ([Value.int n][0]? : Option Value) = some (.int n) := rfl
    rw [mathIsqrt, hlist]
    simp only [if_neg (Int64.not_lt.mpr hn), if_neg hzero, word_of_fits build hfits, htwo, hr,
      bind, Except.bind]
    rfl

/-! ### Divisors -/

/-- The number of divisions of Euclid's algorithm. -/
def euclidSteps (x y : ℕ) : ℕ :=
  if y = 0 then 0 else euclidSteps y (x % y) + 1
termination_by y
decreasing_by exact Nat.mod_lt _ (Nat.pos_of_ne_zero ‹_›)

/-- **Euclid's algorithm** on numbers that are not negative. -/
theorem gcdLoop_of_nonneg {a b : Int64} (ha : 0 ≤ a.toInt) (hb : 0 ≤ b.toInt) :
    ∃ g, gcdLoop a b = .ok g ∧ g.toInt = Nat.gcd a.toInt.natAbs b.toInt.natAbs := by
  fun_induction gcdLoop a b with
  | case1 a => exact ⟨a, rfl, by
      rw [show Int64.toInt 0 = 0 by decide, Int.natAbs_zero, Nat.gcd_zero_right,
        Int.natAbs_of_nonneg ha]⟩
  | case2 a b hb0 hover =>
    obtain ⟨rfl, rfl⟩ := hover
    exact absurd ha (by decide)
  | case3 a b hb0 hover ih =>
    have hmod : (a % b).toInt = a.toInt % b.toInt := toInt_mod rfl rfl ha
    have hb' : b.toInt ≠ 0 := fun h => hb0 (Int64.toInt_inj.mp h)
    obtain ⟨g, hg, hval⟩ := ih hb (by rw [hmod]; exact Int.emod_nonneg _ hb')
    refine ⟨g, hg, ?_⟩
    rw [hval, hmod, Int.natAbs_emod_of_nonneg ha, Nat.gcd_comm, ← Nat.gcd_rec, Nat.gcd_comm]

theorem toInt_minInt : minInt.toInt = -2 ^ 63 := by decide

/-- Euclid's algorithm on two numbers of different signs: the signs alternate. -/
theorem gcdLoop_of_signs {s : ℤ} (hs : s = 1 ∨ s = -1) {x y : ℕ} {a b : Int64}
    (ha : a.toInt = -s * x) (hb : b.toInt = s * y) :
    ∃ g, gcdLoop a b = .ok g ∧ g.toInt = s * (-1) ^ (euclidSteps x y + 1) * Nat.gcd x y := by
  induction y using Nat.strong_induction_on generalizing s x a b with
  | _ y ih =>
    rw [gcdLoop, euclidSteps]
    by_cases hy : y = 0
    · subst hy
      obtain rfl : b = 0 := Int64.toInt_inj.mp (by rw [hb]; simp)
      rw [dif_pos rfl, if_pos rfl, Nat.gcd_zero_right]
      exact ⟨a, rfl, by rw [ha]; ring⟩
    · have hb0 : b ≠ 0 := by
        rintro rfl
        rw [show Int64.toInt 0 = 0 by decide] at hb
        rcases hs with rfl | rfl <;> omega
      have hover : ¬ (a = minInt ∧ b = -1) := by
        rintro ⟨rfl, rfl⟩
        rw [toInt_minInt] at ha
        rw [show Int64.toInt (-1) = -1 by decide] at hb
        rcases hs with rfl | rfl <;> omega
      have hmod : (a % b).toInt = -s * (x % y : ℕ) := by
        rw [Int64.toInt_mod, ha, hb, Int.natCast_mod]
        rcases hs with rfl | rfl
        · rw [Int.neg_mul, Int.one_mul, Int.one_mul, Int.neg_tmod,
            Int.tmod_eq_emod_of_nonneg (Int.natCast_nonneg x)]
          ring
        · rw [Int.neg_neg, Int.one_mul, Int.neg_mul, Int.one_mul, Int.tmod_neg,
            Int.tmod_eq_emod_of_nonneg (Int.natCast_nonneg x)]
          ring
      obtain ⟨g, hg, hval⟩ := ih (x % y) (Nat.mod_lt _ (Nat.pos_of_ne_zero hy)) (s := -s)
        (x := y) (a := b) (b := a % b) (by rcases hs with rfl | rfl <;> simp)
        (by rw [hb]; ring) hmod
      rw [dif_neg hb0, if_neg hover, if_neg hy]
      refine ⟨g, hg, ?_⟩
      rw [hval, Nat.gcd_comm y, ← Nat.gcd_rec, Nat.gcd_comm, pow_succ _ (_ + 1)]
      ring

/-- An argument without its sign, as the natives see it. -/
def rounded (a : Int64) : ℕ :=
  (throughDouble a.toInt).natAbs

theorem rounded_le (a : Int64) : rounded a ≤ 2 ^ 63 := by
  have hlo := a.le_toInt
  have hhi := a.toInt_lt
  have hbounds := throughDouble_bounds (i := a.toInt) (by omega)
  rw [rounded]
  omega

/-- Arguments below `2 ^ 53` are not rounded. -/
theorem rounded_of_lt {a : Int64} (h : a.toInt.natAbs < 2 ^ 53) : rounded a = a.toInt.natAbs := by
  rw [rounded, throughDouble, Rounding.round53_of_lt h]
  split_ifs <;> omega

/-- What the natives read of an integer. -/
theorem toInt64_of_arg (a : Int64) :
    (F64.ofInt a.toInt).toInt64.toInt = throughDouble a.toInt :=
  toInt64_ofInt a.le_toInt a.toInt_lt

/-- The absolute value of an argument that does not become the smallest integer. -/
theorem absWord_of_lt (build : Build) {a : Int64} (h : rounded a < 2 ^ 63) :
    ∃ w, absWord build (F64.ofInt a.toInt).toInt64 = .ok w ∧ w.toInt = rounded a := by
  have hfits : Fits |(F64.ofInt a.toInt).toInt64.toInt| := by
    rw [toInt64_of_arg, Int.abs_eq_natAbs]
    constructor
    · omega
    · exact_mod_cast h
  refine ⟨_, word_of_fits build hfits, ?_⟩
  rw [toInt_ofInt_of_fits hfits, toInt64_of_arg, Int.abs_eq_natAbs, rounded]

/-- The absolute value of one that does. -/
theorem absWord_of_eq {a : Int64} (h : rounded a = 2 ^ 63) :
    absWord .debug (F64.ofInt a.toInt).toInt64 = .error .panic ∧
      absWord .release (F64.ofInt a.toInt).toInt64 = .ok minInt := by
  have habs : |(F64.ofInt a.toInt).toInt64.toInt| = 2 ^ 63 := by
    rw [toInt64_of_arg, Int.abs_eq_natAbs, ← rounded, h]
    rfl
  rw [absWord, absWord, habs]
  exact ⟨rfl, rfl⟩

/-- Rounding the arguments keeps their greatest common divisor. Where an argument is rounded to the
smallest integer, which has no absolute value, a release build gets the sign right after an odd
number of divisions. -/
def GcdKept (build : Build) (a b : Int64) : Prop :=
  Nat.gcd (rounded a) (rounded b) = Nat.gcd a.toInt.natAbs b.toInt.natAbs ∧
    (rounded a < 2 ^ 63 ∧ rounded b < 2 ^ 63 ∨
      build = .release ∧ rounded a ≠ rounded b ∧
        Odd (euclidSteps (max (rounded a) (rounded b)) (min (rounded a) (rounded b))))

/-- The native returns the greatest common divisor. -/
def ReturnsGcd (build : Build) (display : Value → String) (a b : Int64) : Prop :=
  ∃ g : Int64, mathGcd build display [.int a, .int b] = .ok (.int g) ∧
    g.toInt = Nat.gcd a.toInt.natAbs b.toInt.natAbs

/-- The native in three steps. -/
theorem mathGcd_eq (build : Build) (display : Value → String) (a b : Int64) :
    mathGcd build display [.int a, .int b] =
      ((absWord build (F64.ofInt a.toInt).toInt64).bind fun a =>
        (absWord build (F64.ofInt b.toInt).toInt64).bind fun b =>
          (gcdLoop a b).map .int) := rfl

theorem returnsGcd_of_words {build : Build} {display : Value → String} {a b v w g : Int64}
    (hv : absWord build (F64.ofInt a.toInt).toInt64 = .ok v)
    (hw : absWord build (F64.ofInt b.toInt).toInt64 = .ok w) (hg : gcdLoop v w = .ok g) :
    ReturnsGcd build display a b ↔ g.toInt = Nat.gcd a.toInt.natAbs b.toInt.natAbs := by
  rw [ReturnsGcd, mathGcd_eq, hv, hw]
  simp only [Except.bind, hg, Except.map, Except.ok.injEq, Value.int.injEq, exists_eq_left']

/-- The greatest common divisor with a sign: only the positive one is meant. -/
theorem signed_gcd_eq_iff {x y d n : ℕ} (hx : Nat.gcd x y ≠ 0) :
    (-1 : ℤ) ^ n * Nat.gcd x y = d ↔ Nat.gcd x y = d ∧ Even n := by
  rcases Nat.even_or_odd n with heven | hodd
  · rw [heven.neg_one_pow, one_mul, Nat.cast_inj]
    exact ⟨fun h => ⟨h, heven⟩, And.left⟩
  · rw [hodd.neg_one_pow]
    constructor
    · intro h
      omega
    · rintro ⟨-, heven⟩
      exact absurd hodd (Nat.not_odd_iff_even.mpr heven)

theorem gcd_ne_zero_of_right {x y : ℕ} (hy : y = 2 ^ 63) : Nat.gcd x y ≠ 0 :=
  (Nat.gcd_pos_of_pos_right x (by omega)).ne'

/-- **The greatest common divisor** is right exactly if rounding keeps it. -/
theorem returnsGcd_iff (build : Build) (display : Value → String) (a b : Int64) :
    ReturnsGcd build display a b ↔ GcdKept build a b := by
  rw [GcdKept]
  rcases Nat.lt_or_eq_of_le (rounded_le a) with ha | ha <;>
    rcases Nat.lt_or_eq_of_le (rounded_le b) with hb | hb
  · -- no argument overflows
    obtain ⟨v, hv, hvval⟩ := absWord_of_lt build ha
    obtain ⟨w, hw, hwval⟩ := absWord_of_lt build hb
    obtain ⟨g, hg, hgval⟩ := gcdLoop_of_nonneg (a := v) (b := w) (by omega) (by omega)
    rw [hvval, hwval, Int.natAbs_natCast, Int.natAbs_natCast] at hgval
    rw [returnsGcd_of_words hv hw hg, hgval, Nat.cast_inj]
    exact ⟨fun h => ⟨h, .inl ⟨ha, hb⟩⟩, And.left⟩
  · -- the second argument has no absolute value
    obtain ⟨v, hv, hvval⟩ := absWord_of_lt build ha
    obtain ⟨hdebug, hrelease⟩ := absWord_of_eq hb
    rcases build with _ | _
    · refine iff_of_false ?_ ?_
      · rintro ⟨g, hg, -⟩
        rw [mathGcd_eq, hv, hdebug] at hg
        cases hg
      · rintro ⟨-, ⟨-, h⟩ | ⟨h, -⟩⟩
        · omega
        · cases h
    · obtain ⟨g, hg, hgval⟩ := gcdLoop_of_signs (.inr rfl) (x := rounded a) (y := rounded b)
        (a := v) (b := minInt) (by rw [hvval]; ring) (by rw [hb, toInt_minInt]; norm_num)
      have hsteps : euclidSteps (rounded a) (rounded b) =
          euclidSteps (rounded b) (rounded a) + 1 := by
        rw [euclidSteps, if_neg (by omega), Nat.mod_eq_of_lt (hb ▸ ha)]
      have hsign := signed_gcd_eq_iff (d := Nat.gcd a.toInt.natAbs b.toInt.natAbs)
        (n := euclidSteps (rounded b) (rounded a) + 3) (gcd_ne_zero_of_right (x := rounded a) hb)
      have hparity : Even (euclidSteps (rounded b) (rounded a) + 3) ↔
          Odd (euclidSteps (rounded b) (rounded a)) := by
        rw [Nat.even_iff, Nat.odd_iff]
        omega
      rw [hsteps, show (-1 : ℤ) * (-1) ^ (euclidSteps (rounded b) (rounded a) + 1 + 1) =
        (-1) ^ (euclidSteps (rounded b) (rounded a) + 3) by ring] at hgval
      rw [returnsGcd_of_words hv hrelease hg, hgval, hsign, hparity,
        max_eq_right (by omega), min_eq_left (by omega)]
      refine and_congr_right fun _ => ⟨fun h => .inr ⟨rfl, by omega, h⟩, ?_⟩
      rintro (⟨-, h⟩ | ⟨-, -, h⟩)
      · omega
      · exact h
  · -- the first argument has none
    obtain ⟨hdebug, hrelease⟩ := absWord_of_eq ha
    obtain ⟨w, hw, hwval⟩ := absWord_of_lt build hb
    rcases build with _ | _
    · refine iff_of_false ?_ ?_
      · rintro ⟨g, hg, -⟩
        rw [mathGcd_eq, hdebug] at hg
        cases hg
      · rintro ⟨-, ⟨h, -⟩ | ⟨h, -⟩⟩
        · omega
        · cases h
    · obtain ⟨g, hg, hgval⟩ := gcdLoop_of_signs (.inl rfl) (x := rounded a) (y := rounded b)
        (a := minInt) (b := w) (by rw [ha, toInt_minInt]; norm_num) (by rw [hwval, one_mul])
      have hsign := signed_gcd_eq_iff (d := Nat.gcd a.toInt.natAbs b.toInt.natAbs)
        (n := euclidSteps (rounded a) (rounded b) + 1)
        (Nat.gcd_comm .. ▸ gcd_ne_zero_of_right (x := rounded b) ha)
      have hparity : Even (euclidSteps (rounded a) (rounded b) + 1) ↔
          Odd (euclidSteps (rounded a) (rounded b)) := by
        rw [Nat.even_iff, Nat.odd_iff]
        omega
      rw [one_mul] at hgval
      rw [returnsGcd_of_words hrelease hw hg, hgval, hsign, hparity,
        max_eq_left (by omega), min_eq_right (by omega)]
      refine and_congr_right fun _ => ⟨fun h => .inr ⟨rfl, by omega, h⟩, ?_⟩
      rintro (⟨h, -⟩ | ⟨-, -, h⟩)
      · omega
      · exact h
  · -- neither has one
    obtain ⟨hdebug, hrelease⟩ := absWord_of_eq ha
    obtain ⟨-, hrelease'⟩ := absWord_of_eq hb
    refine iff_of_false ?_ ?_
    · rcases build with _ | _
      · rintro ⟨g, hg, -⟩
        rw [mathGcd_eq, hdebug] at hg
        cases hg
      · have hloop : gcdLoop minInt minInt = .ok minInt := by
          rw [gcdLoop, dif_neg (by decide), if_neg (by decide), gcdLoop, dif_pos (by decide)]
        rw [returnsGcd_of_words hrelease hrelease' hloop, toInt_minInt]
        omega
    · rintro ⟨-, ⟨h, -⟩ | ⟨-, hne, -⟩⟩
      · omega
      · exact hne (ha.trans hb.symm)

/-- What is left of a product: a release build drops the bits above the word. -/
def Build.kept (build : Build) (n : ℕ) : ℕ :=
  match build with
  | .debug => n
  | .release => n % 2 ^ 64

/-- Rounding the arguments keeps their least common multiple, up to what a release build wraps
around, and both have an absolute value. -/
def LcmKept (build : Build) (a b : Int64) : Prop :=
  a = 0 ∨ b = 0 ∨ rounded a < 2 ^ 63 ∧ rounded b < 2 ^ 63 ∧
    build.kept (Nat.lcm (rounded a) (rounded b)) = Nat.lcm a.toInt.natAbs b.toInt.natAbs

/-- The native returns the least common multiple. -/
def ReturnsLcm (build : Build) (display : Value → String) (a b : Int64) : Prop :=
  ∃ m : Int64, mathLcm build display [.int a, .int b] = .ok (.int m) ∧
    m.toInt = Nat.lcm a.toInt.natAbs b.toInt.natAbs

/-- An argument is zero exactly if it is zero as a double. -/
theorem toInt64_eq_zero_iff (a : Int64) : (F64.ofInt a.toInt).toInt64 = 0 ↔ a = 0 := by
  rw [← Int64.toInt_inj, toInt64_of_arg, ← Int64.toInt_inj, show Int64.toInt 0 = 0 by decide]
  constructor
  · intro h
    by_contra hne
    have hpos := Rounding.round53_pos (Int.natAbs_ne_zero.mpr hne)
    rw [throughDouble] at h
    split_ifs at h <;> omega
  · intro h
    rw [h]
    rfl

theorem rounded_pos {a : Int64} (h : a ≠ 0) : 0 < rounded a := by
  refine Int.natAbs_pos.mpr fun hzero => h ((toInt64_eq_zero_iff a).mp ?_)
  exact Int64.toInt_inj.mp ((toInt64_of_arg a).trans hzero)

/-- The native in five steps, once no argument is zero. -/
theorem mathLcm_eq (build : Build) (display : Value → String) (a b : Int64) :
    mathLcm build display [.int a, .int b] =
      if (F64.ofInt a.toInt).toInt64 = 0 ∨ (F64.ofInt b.toInt).toInt64 = 0 then .ok (.int 0) else
      ((absWord build (F64.ofInt a.toInt).toInt64).bind fun a =>
        (absWord build (F64.ofInt b.toInt).toInt64).bind fun b =>
          (gcdLoop a b).bind fun g => (divWord a g).bind fun q =>
            (build.word (q.toInt * b.toInt)).map .int) := rfl

theorem not_zero_args {a b : Int64} (ha : a ≠ 0) (hb : b ≠ 0) :
    ¬ ((F64.ofInt a.toInt).toInt64 = 0 ∨ (F64.ofInt b.toInt).toInt64 = 0) := by
  rw [toInt64_eq_zero_iff, toInt64_eq_zero_iff]
  exact not_or_intro ha hb

theorem returnsLcm_of_words {build : Build} {display : Value → String} {a b v w g q : Int64}
    (ha : a ≠ 0) (hb : b ≠ 0) (hv : absWord build (F64.ofInt a.toInt).toInt64 = .ok v)
    (hw : absWord build (F64.ofInt b.toInt).toInt64 = .ok w) (hg : gcdLoop v w = .ok g)
    (hq : divWord v g = .ok q) :
    ReturnsLcm build display a b ↔ ∃ m, build.word (q.toInt * w.toInt) = .ok m ∧
      m.toInt = Nat.lcm a.toInt.natAbs b.toInt.natAbs := by
  rw [ReturnsLcm, mathLcm_eq, if_neg (not_zero_args ha hb), hv, hw]
  simp only [Except.bind, hg, hq]
  rcases build.word (q.toInt * w.toInt) with e | m
  · simp only [Except.map, reduceCtorEq, false_and, exists_false]
  · simp only [Except.map, Except.ok.injEq, Value.int.injEq]

/-- A multiple of `2 ^ 63` wraps around to no positive number. -/
theorem ofInt_nonpos {n : ℤ} (h : 2 ^ 63 ∣ n) : (Int64.ofInt n).toInt ≤ 0 := by
  rw [Int64.toInt_ofInt, show Int64.size = 2 ^ 64 by rfl]
  obtain ⟨k, rfl⟩ := h
  have hrange := Int.bmod_lt (x := 2 ^ 63 * k) (m := 2 ^ 64) (by norm_num)
  have hdvd := Int.dvd_bmod_sub_self (x := 2 ^ 63 * k) (m := 2 ^ 64)
  omega

/-- The last product of the native is the least common multiple of the rounded arguments. -/
theorem word_lcm_iff (build : Build) {n d : ℕ} (hd : d < 2 ^ 63) :
    (∃ m, build.word n = .ok m ∧ m.toInt = d) ↔ build.kept n = d := by
  rcases build with _ | _
  · constructor
    · rintro ⟨m, hm, hval⟩
      rw [Build.word] at hm
      split_ifs at hm with hover
      have hfits : Fits n := by
        by_contra hnot
        exact hover ⟨rfl, hnot⟩
      rw [← Except.ok.inj hm, toInt_ofInt_of_fits hfits] at hval
      exact_mod_cast hval
    · intro (h : n = d)
      have hfits : Fits n := ⟨by omega, by omega⟩
      exact ⟨_, word_of_fits _ hfits, (toInt_ofInt_of_fits hfits).trans (congrArg _ h)⟩
  · have hword : Build.release.word n = .ok (Int64.ofInt n) := if_neg fun h => nomatch h.1
    simp only [hword, Except.ok.injEq, exists_eq_left', Int64.toInt_ofInt, Int.bmod_def,
      Build.kept]
    rw [show Int64.size = 2 ^ 64 by rfl]
    split_ifs <;> omega

/-- The quotient by a divisor of both arguments, times the second, is a multiple of the first. -/
theorem dvd_of_divWord {v w g q : Int64} (hq : divWord v g = .ok q) (hv : g.toInt ∣ v.toInt)
    (hw : g.toInt ∣ w.toInt) : v.toInt ∣ q.toInt * w.toInt := by
  rw [divWord] at hq
  split_ifs at hq with hpanic
  obtain rfl := Except.ok.inj hq
  have hquot : (v / g).toInt = v.toInt.tdiv g.toInt := by
    by_cases hone : g = -1
    · exact Int64.toInt_div_of_ne_left _ _ fun h => hpanic (.inr ⟨h, hone⟩)
    · exact Int64.toInt_div_of_ne_right _ _ hone
  obtain ⟨k, hk⟩ := hw
  refine ⟨k, ?_⟩
  rw [hquot, hk, ← mul_assoc, Int.tdiv_mul_cancel hv]

/-- A native that meets the smallest integer returns no positive number. -/
theorem not_returnsLcm_of_overflow (build : Build) (display : Value → String) {a b : Int64}
    (ha : a ≠ 0) (hb : b ≠ 0) (hover : rounded a = 2 ^ 63 ∨ rounded b = 2 ^ 63) :
    ¬ ReturnsLcm build display a b := by
  rintro ⟨m, hm, hval⟩
  have hpos : 0 < Nat.lcm a.toInt.natAbs b.toInt.natAbs :=
    Nat.lcm_pos (Int.natAbs_pos.mpr fun h => ha (Int64.toInt_inj.mp h))
      (Int.natAbs_pos.mpr fun h => hb (Int64.toInt_inj.mp h))
  rw [mathLcm_eq, if_neg (not_zero_args ha hb)] at hm
  rcases hv : absWord build (F64.ofInt a.toInt).toInt64 with e | v
  · rw [hv] at hm
    cases hm
  rcases hw : absWord build (F64.ofInt b.toInt).toInt64 with e | w
  · rw [hv, hw] at hm
    cases hm
  rcases build with _ | _
  · -- the overflow is a panic
    rcases hover with h | h
    · rw [(absWord_of_eq h).1] at hv
      cases hv
    · rw [(absWord_of_eq h).1] at hw
      cases hw
  rw [hv, hw] at hm
  rcases hg : gcdLoop v w with e | g
  · simp only [Except.bind, hg, reduceCtorEq] at hm
  rcases hq : divWord v g with e | q
  · simp only [Except.bind, hg, hq, reduceCtorEq] at hm
  simp only [Except.bind, hg, hq, Build.word, reduceCtorEq, false_and, if_false, Except.map,
    Except.ok.injEq, Value.int.injEq] at hm
  have hdvd : (2 ^ 63 : ℤ) ∣ q.toInt * w.toInt := by
    have hmin : (2 ^ 63 : ℤ) ∣ minInt.toInt := by
      rw [toInt_minInt]
      exact Int.dvd_neg.mpr (Int.dvd_refl _)
    rcases Nat.lt_or_eq_of_le (rounded_le b) with hltb | heqb
    · have heqa := hover.resolve_right hltb.ne
      rw [(absWord_of_eq heqa).2] at hv
      obtain rfl := Except.ok.inj hv
      obtain ⟨w', hw', hwval⟩ := absWord_of_lt .release hltb
      obtain rfl := Except.ok.inj (hw.symm.trans hw')
      obtain ⟨g', hg', hgval⟩ := gcdLoop_of_signs (.inl rfl) (x := rounded a) (y := rounded b)
        (a := minInt) (b := w) (by rw [heqa, toInt_minInt]; norm_num) (by rw [hwval, one_mul])
      obtain rfl := Except.ok.inj (hg.symm.trans hg')
      have habs : g.toInt.natAbs = Nat.gcd (rounded a) (rounded b) := by
        rw [hgval, Int.natAbs_mul, Int.natAbs_mul, Int.natAbs_pow, Int.natAbs_natCast]
        simp
      refine hmin.trans (dvd_of_divWord hq ?_ ?_)
      · rw [← Int.natAbs_dvd_natAbs, habs, toInt_minInt]
        exact heqa ▸ Nat.gcd_dvd_left _ _
      · rw [← Int.natAbs_dvd_natAbs, habs, hwval]
        exact Nat.gcd_dvd_right _ _
    · rw [(absWord_of_eq heqb).2] at hw
      obtain rfl := Except.ok.inj hw
      exact hmin.mul_left _
  have hnonpos := ofInt_nonpos hdvd
  rw [hm, hval] at hnonpos
  omega

/-- **The least common multiple**, where it fits, is right exactly if rounding keeps it. -/
theorem returnsLcm_iff (build : Build) (display : Value → String) {a b : Int64}
    (hfits : Nat.lcm a.toInt.natAbs b.toInt.natAbs < 2 ^ 63) :
    ReturnsLcm build display a b ↔ LcmKept build a b := by
  by_cases hzero : a = 0 ∨ b = 0
  · refine iff_of_true ⟨0, ?_, ?_⟩ (hzero.elim .inl fun h => .inr (.inl h))
    · rw [mathLcm_eq, if_pos]
      rwa [toInt64_eq_zero_iff, toInt64_eq_zero_iff]
    · rw [show Int64.toInt 0 = 0 by decide]
      rcases hzero with rfl | rfl
      · rw [show Int64.toInt 0 = 0 by decide, Int.natAbs_zero, Nat.lcm_zero_left, Nat.cast_zero]
      · rw [show Int64.toInt 0 = 0 by decide, Int.natAbs_zero, Nat.lcm_zero_right, Nat.cast_zero]
  · obtain ⟨ha, hb⟩ := not_or.mp hzero
    by_cases hsmall : rounded a < 2 ^ 63 ∧ rounded b < 2 ^ 63
    · obtain ⟨v, hv, hvval⟩ := absWord_of_lt build hsmall.1
      obtain ⟨w, hw, hwval⟩ := absWord_of_lt build hsmall.2
      obtain ⟨g, hg, hgval⟩ := gcdLoop_of_nonneg (a := v) (b := w) (by omega) (by omega)
      rw [hvval, hwval, Int.natAbs_natCast, Int.natAbs_natCast] at hgval
      have hgpos := Nat.gcd_pos_of_pos_left (rounded b) (rounded_pos ha)
      obtain ⟨hq, hqval⟩ := divWord_of_pos (a := v) (b := g) (by omega) (by omega)
      have hprod : (v / g).toInt * w.toInt = (Nat.lcm (rounded a) (rounded b) : ℕ) := by
        rw [hqval, hvval, hgval, hwval, ← Int.natCast_ediv, ← Nat.cast_mul, Nat.lcm,
          Nat.div_mul_right_comm (Nat.gcd_dvd_left _ _)]
      rw [returnsLcm_of_words ha hb hv hw hg hq, hprod, word_lcm_iff build hfits]
      simp only [LcmKept, ha, hb, hsmall, false_or, true_and]
    · have hover : rounded a = 2 ^ 63 ∨ rounded b = 2 ^ 63 := by
        have hlea := rounded_le a
        have hleb := rounded_le b
        omega
      refine iff_of_false (not_returnsLcm_of_overflow build display ha hb hover) ?_
      rintro (h | h | ⟨hlta, hltb, -⟩)
      · exact ha h
      · exact hb h
      · exact hsmall ⟨hlta, hltb⟩

/-! ### All three -/

/-- **The natives are exact** where nothing that they compute leaves the word and the rounding of
their arguments does not show: the root for all integers but the largest, and each divisor exactly
if the rounded arguments have the same. -/
theorem math_exact_iff (build : Build) (display : Value → String) :
    (∀ n : Int64, 0 ≤ n → (ReturnsRoot build n ↔ n ≠ Int64.maxValue)) ∧
      (∀ a b : Int64, a ≠ minInt → b ≠ minInt →
        (ReturnsGcd build display a b ↔ GcdKept build a b)) ∧
      ∀ a b : Int64, a ≠ minInt → b ≠ minInt →
        Nat.lcm a.toInt.natAbs b.toInt.natAbs < 2 ^ 63 →
          (ReturnsLcm build display a b ↔ LcmKept build a b) :=
  ⟨fun _ hn => returnsRoot_iff build hn, fun a b _ _ => returnsGcd_iff build display a b,
    fun _ _ _ _ hfits => returnsLcm_iff build display hfits⟩

/-- The divisors of numbers below `2 ^ 53` are exact in both builds. -/
theorem kept_of_lt {a b : Int64} (build : Build) (ha : a.toInt.natAbs < 2 ^ 53)
    (hb : b.toInt.natAbs < 2 ^ 53) : GcdKept build a b ∧
      (Nat.lcm a.toInt.natAbs b.toInt.natAbs < 2 ^ 63 → LcmKept build a b) := by
  have hlta : a.toInt.natAbs < 2 ^ 63 := ha.trans (by norm_num)
  have hltb : b.toInt.natAbs < 2 ^ 63 := hb.trans (by norm_num)
  rw [GcdKept, LcmKept, rounded_of_lt ha, rounded_of_lt hb]
  refine ⟨⟨rfl, .inl ⟨hlta, hltb⟩⟩, fun hfits => .inr (.inr ⟨hlta, hltb, ?_⟩)⟩
  cases build with
  | debug => rfl
  | release => exact Nat.mod_eq_of_lt (hfits.trans (by norm_num))

theorem math_exact_small :
    ReturnsRoot .debug 9 ∧ ReturnsGcd .debug (fun _ => "") 12 (-8) ∧
      ReturnsLcm .release (fun _ => "") (-4) 6 :=
  ⟨((math_exact_iff .debug fun _ => "").1 9 (by decide)).mpr (by decide),
    ((math_exact_iff .debug fun _ => "").2.1 12 (-8) (by decide) (by decide)).mpr
      (kept_of_lt .debug (by decide) (by decide)).1,
    ((math_exact_iff .release fun _ => "").2.2 (-4) 6 (by decide) (by decide) (by decide)).mpr
      ((kept_of_lt .release (by decide) (by decide)).2 (by decide))⟩

/-- The root of the largest integer fails in both builds, and `2 ^ 53 + 1` is no divisor of
itself. -/
theorem math_is_not_exact :
    ¬ ReturnsRoot .debug Int64.maxValue ∧ ¬ ReturnsRoot .release Int64.maxValue ∧
      ¬ ReturnsGcd .release (fun _ => "") 9007199254740993 9007199254740993 ∧
      ¬ ReturnsLcm .release (fun _ => "") 9007199254740993 9007199254740993 := by
  have hround : rounded 9007199254740993 = 9007199254740992 := by decide +kernel
  have hself : (9007199254740993 : Int64).toInt.natAbs = 9007199254740993 := by decide +kernel
  refine ⟨fun h => (returnsRoot_iff .debug (by decide)).mp h rfl,
    fun h => (returnsRoot_iff .release (by decide)).mp h rfl, fun h => ?_, fun h => ?_⟩
  · have hkept := ((returnsGcd_iff _ _ _ _).mp h).1
    rw [hround, hself, Nat.gcd_self, Nat.gcd_self] at hkept
    exact absurd hkept (by decide)
  · have hfits : Nat.lcm (9007199254740993 : Int64).toInt.natAbs
        (9007199254740993 : Int64).toInt.natAbs < 2 ^ 63 := by
      rw [hself, Nat.lcm_self]
      decide
    obtain hzero | hzero | ⟨-, -, hkept⟩ := (returnsLcm_iff _ _ hfits).mp h
    · exact absurd hzero (by decide)
    · exact absurd hzero (by decide)
    · rw [hround, hself, Nat.lcm_self, Nat.lcm_self, Build.kept] at hkept
      exact absurd hkept (by decide)

end ZzLang.Runtime

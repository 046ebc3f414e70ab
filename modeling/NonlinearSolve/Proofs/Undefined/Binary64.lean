import NonlinearSolve.Proofs.Undefined.Numbers

/-! # Undefined numbers in binary64

The operations on `Float` unpack their arguments, compute with signs, mantissas and exponents,
round, and pack the result. Neither rounding nor packing changes a sign, although both may make zero
or an infinite number of a finite one (`sign?_repacked`). This is all that the laws of undefined
numbers need, so binary64 has them. -/

namespace NonlinearSolve

namespace Binary64

open Float.Model (UnpackedFloat)
open Float.Model.UnpackedFloat (Accuracy Sign packComponents unpackExponent_packComponents
  unpackMantissa_packComponents)

/-! ### Signs -/

/-- The sign of a number. An undefined number has none. -/
def sign? : UnpackedFloat → Option Sign
  | .notANumber => none
  | .infinity s => some s
  | .zero s => some s
  | .finite s _ _ _ => some s

/-- Packs a number and unpacks it again. -/
def repacked (u : UnpackedFloat) : UnpackedFloat :=
  UnpackedFloat.unpack .binary64 (UnpackedFloat.pack .binary64 u)

/-- The sign is the first of the bits that are packed. -/
theorem ofBitVec_unpackSign (s : Sign) (e : BitVec 11) (m : BitVec 52) :
    Sign.ofBitVec (UnpackedFloat.unpackSign (packComponents .binary64 s e m)) = s := by
  have hfirst : (s.toBitVec ++ e ++ m).getLsbD 63 = s.toBitVec.getLsbD 0 := by
    rw [BitVec.getLsbD_append, BitVec.getLsbD_append]
    rfl
  have hsign : UnpackedFloat.unpackSign (packComponents .binary64 s e m) = s.toBitVec := by
    ext i hi
    obtain rfl : i = 0 := by omega
    change (BitVec.cast _ (BitVec.extractLsb' 63 1 (s.toBitVec ++ e ++ m)))[0] = _
    rw [BitVec.getElem_cast, BitVec.getElem_extractLsb']
    exact hfirst
  rw [hsign]
  cases s <;> rfl

/-- What is packed with a sign has it, unless it encodes an undefined number. -/
theorem sign?_unpack_packComponents (s : Sign) {e : BitVec 11} {m : BitVec 52}
    (hdefined : e = -1#11 → m = 0#52) :
    sign? (UnpackedFloat.unpack .binary64 (packComponents .binary64 s e m)) = some s := by
  have hsign := congrArg some (ofBitVec_unpackSign s e m)
  delta UnpackedFloat.unpack
  dsimp only
  by_cases hlast : UnpackedFloat.unpackExponent (packComponents .binary64 s e m) = -1#11
  · -- the exponent of infinite and undefined numbers
    have hzero := hdefined (unpackExponent_packComponents.symm.trans hlast)
    rw [if_pos hlast, if_pos (unpackMantissa_packComponents.trans hzero)]
    exact hsign
  · rw [if_neg hlast]
    by_cases hfirst : UnpackedFloat.unpackExponent (packComponents .binary64 s e m) = 0#11
    · -- the exponent of zero and of the smallest numbers
      rw [if_pos hfirst]
      by_cases hm : UnpackedFloat.unpackMantissa (packComponents .binary64 s e m) = 0#52
      · rw [dif_pos hm]
        exact hsign
      · rw [dif_neg hm]
        exact hsign
    · rw [if_neg hfirst]
      exact hsign

/-- Packing keeps the sign. -/
theorem sign?_repacked (u : UnpackedFloat) : sign? (repacked u) = sign? u := by
  cases u with
  | notANumber => rfl
  | infinity s => exact sign?_unpack_packComponents s fun _ => rfl
  | zero s => exact sign?_unpack_packComponents s fun _ => rfl
  | finite s m e hm =>
    change _ = some s
    delta repacked UnpackedFloat.pack
    dsimp only
    split
    · -- too large
      exact sign?_unpack_packComponents s fun _ => rfl
    · next hsmall =>
      -- the exponent field of an infinite number is out of reach
      have hne : ∀ b : Nat, ¬ 2 ^ 11 ≤ b + 1 → BitVec.ofNat 11 b ≠ -1#11 := by
        intro b hb he
        have hfield : b % 2 ^ 11 = 2 ^ 11 - 1 := congrArg BitVec.toNat he
        omega
      split
      · exact sign?_unpack_packComponents s fun he => absurd he (hne _ hsmall)
      · exact sign?_unpack_packComponents s fun he => absurd he (by decide)

/-- A packed zero remains what it is. -/
theorem repacked_zero (s : Sign) : repacked (.zero s) = .zero s := by
  cases s <;> rfl

/-- Rounding keeps the sign. -/
theorem sign?_roundWithAccuracy (s : Sign) (m : Nat) (e : Int)
    (a : Accuracy) :
    sign? (UnpackedFloat.roundWithAccuracy .binary64 s m e a) = some s := by
  -- the number is zero or finite, with the same sign
  refine (apply_dite sign? _ _ _).trans ?_
  change (dite _ (fun _ => some s) fun _ => some s) = some s
  rw [dite_eq_ite, ite_self]

/-- A number that is not negative before it is normalized has the positive sign. -/
theorem sign?_normalize {m : Int} (hm : 0 ≤ m) (e : Int) :
    sign? (UnpackedFloat.normalize .binary64 m e .positive) = some .positive := by
  rw [UnpackedFloat.normalize]
  split
  · next hlt => exact absurd (Int.compare_eq_lt.1 hlt) (Int.not_lt.2 hm)
  · rfl
  · exact sign?_roundWithAccuracy _ _ _ _

/-! ### Numbers on one side of zero -/

/-- The number is zero or has the sign `s`. -/
def Agrees (s : Sign) : UnpackedFloat → Prop
  | .notANumber => False
  | .infinity t => t = s
  | .zero _ => True
  | .finite t _ _ _ => t = s

/-- The number has a positive sign and is not zero. -/
def IsPositive : UnpackedFloat → Prop
  | .notANumber => False
  | .infinity t => t = .positive
  | .zero _ => False
  | .finite t _ _ _ => t = .positive

/-- A number agrees with its own sign. -/
theorem agrees_of_sign? {s : Sign} {u : UnpackedFloat} (h : sign? u = some s) : Agrees s u := by
  cases u with
  | notANumber => cases h
  | infinity t => exact Option.some.inj h
  | zero t => trivial
  | finite t m e hm => exact Option.some.inj h

/-- Rounding keeps the side of zero. -/
theorem Agrees.repacked {s : Sign} {u : UnpackedFloat} (h : Agrees s u) :
    Agrees s (repacked u) := by
  cases u with
  | notANumber => exact h.elim
  | zero t =>
    rw [repacked_zero]
    trivial
  | infinity t => exact agrees_of_sign? ((sign?_repacked _).trans (congrArg some h))
  | finite t m e hm => exact agrees_of_sign? ((sign?_repacked _).trans (congrArg some h))

/-- A square is positive. -/
theorem sign_mul_self (s : Sign) : s * s = .positive := by
  cases s <;> rfl

/-- A positive divisor keeps the sign. -/
theorem sign_div_positive (s : Sign) : s / .positive = s := by
  cases s <;> rfl

/-- A square is undefined or not negative. -/
theorem agrees_mul_self (u : UnpackedFloat) :
    UnpackedFloat.mul .binary64 u u = .notANumber ∨
      Agrees .positive (UnpackedFloat.mul .binary64 u u) := by
  cases u with
  | notANumber => exact .inl rfl
  | infinity s => exact .inr (sign_mul_self s)
  | zero s => exact .inr trivial
  | finite s m e hm =>
    refine .inr (agrees_of_sign? ?_)
    rw [← sign_mul_self s]
    exact sign?_roundWithAccuracy _ _ _ _

/-- A sum of numbers that are not negative is not negative. -/
theorem Agrees.add {u v : UnpackedFloat} (hu : Agrees .positive u) (hv : Agrees .positive v) :
    Agrees .positive (UnpackedFloat.add .binary64 u v) := by
  cases u with
  | notANumber => exact hu.elim
  | infinity s =>
    obtain rfl : s = .positive := hu
    cases v with
    | notANumber => exact hv.elim
    | infinity t =>
      obtain rfl : t = .positive := hv
      rfl
    | zero t => rfl
    | finite t m e hm => rfl
  | zero s =>
    cases v with
    | notANumber => exact hv.elim
    | infinity t => exact hv
    | zero t => cases s <;> cases t <;> exact trivial
    | finite t m e hm => exact hv
  | finite s m e hm =>
    obtain rfl : s = .positive := hu
    cases v with
    | notANumber => exact hv.elim
    | infinity t => exact hv
    | zero t => rfl
    | finite t m' e' hm' =>
      obtain rfl : t = .positive := hv
      exact agrees_of_sign? (sign?_normalize (Int.natCast_nonneg _) _)

/-- A quotient by a positive number is undefined or on the side of the dividend. -/
theorem Agrees.div {s : Sign} {u v : UnpackedFloat} (hu : Agrees s u) (hv : IsPositive v) :
    UnpackedFloat.div .binary64 u v = .notANumber ∨
      Agrees s (UnpackedFloat.div .binary64 u v) := by
  cases v with
  | notANumber => exact hv.elim
  | zero t => exact hv.elim
  | infinity t =>
    obtain rfl : t = .positive := hv
    cases u with
    | notANumber => exact hu.elim
    | infinity r => exact .inl rfl
    | zero r => exact .inr trivial
    | finite r m e hm => exact .inr trivial
  | finite t m e hm =>
    obtain rfl : t = .positive := hv
    refine .inr ?_
    cases u with
    | notANumber => exact hu.elim
    | infinity r => exact (sign_div_positive r).trans hu
    | zero r => trivial
    | finite r m' e' hm' =>
      obtain rfl : r = s := hu
      exact agrees_of_sign? ((sign?_roundWithAccuracy _ _ _ _).trans
        (congrArg some (sign_div_positive r)))

/-! ### Comparisons -/

/-- The unpacked form of a number. -/
def unpacked (x : Float) : UnpackedFloat := x.toModel.unpack

/-- The literal zero is a positive zero. -/
theorem unpacked_zero : unpacked (0 : Float) = .zero .positive := rfl

/-- Numbers are compared in their unpacked form. -/
theorem le_iff (x y : Float) : x ≤ y ↔ (unpacked x).le (unpacked y) = true :=
  decide_eq_true_iff

/-- Numbers are strictly compared in their unpacked form. -/
theorem lt_iff (x y : Float) : x < y ↔ (unpacked x).lt (unpacked y) = true :=
  decide_eq_true_iff

/-- Only the undefined number differs from itself. -/
theorem compare_self_or_undefined (u : UnpackedFloat) :
    u.compare u = some .eq ∨ u = .notANumber := by
  cases u with
  | notANumber => exact .inr rfl
  | infinity s => cases s <;> exact .inl rfl
  | zero s => exact .inl rfl
  | finite s m e hm =>
    have hcompare : (compare e e).then (compare m m) = .eq := by
      have he : compare e e = .eq := Std.ReflCmp.compare_self
      have hm : compare m m = .eq := Std.ReflCmp.compare_self
      rw [he, hm]
      rfl
    cases s with
    | negative => exact .inl (congrArg (fun o : Ordering => some o.swap) hcompare)
    | positive => exact .inl (congrArg some hcompare)

/-- A number is undefined if it is unpacked to the undefined number. -/
theorem isUndefined_iff (x : Float) : Scalar.IsUndefined x ↔ unpacked x = .notANumber := by
  change ((unpacked x).compare (unpacked x) == some .eq) = false ↔ _
  obtain heq | hundefined := compare_self_or_undefined (unpacked x)
  · rw [heq]
    refine iff_of_false (by decide) ?_
    intro hundefined
    rw [hundefined] at heq
    cases heq
  · rw [hundefined]
    exact iff_of_true rfl rfl

/-- A number is not below zero if it is zero or positive. -/
theorem nonneg_iff (x : Float) : (0 : Float) ≤ x ↔ Agrees .positive (unpacked x) := by
  rw [le_iff, unpacked_zero]
  cases unpacked x with
  | notANumber => exact iff_of_false Bool.false_ne_true id
  | zero s => exact iff_of_true rfl trivial
  | infinity s | finite s m e hm =>
    cases s with
    | negative => exact iff_of_false Bool.false_ne_true nofun
    | positive => exact iff_of_true rfl rfl

/-- A number is not above zero if it is zero or negative. -/
theorem nonpos_iff (x : Float) : x ≤ (0 : Float) ↔ Agrees .negative (unpacked x) := by
  rw [le_iff, unpacked_zero]
  cases unpacked x with
  | notANumber => exact iff_of_false Bool.false_ne_true id
  | zero s => exact iff_of_true rfl trivial
  | infinity s | finite s m e hm =>
    cases s with
    | negative => exact iff_of_true rfl rfl
    | positive => exact iff_of_false Bool.false_ne_true nofun

/-- A number is above zero if it is positive. -/
theorem pos_iff (x : Float) : (0 : Float) < x ↔ IsPositive (unpacked x) := by
  rw [lt_iff, unpacked_zero]
  cases unpacked x with
  | notANumber | zero s => exact iff_of_false Bool.false_ne_true id
  | infinity s | finite s m e hm =>
    cases s with
    | negative => exact iff_of_false Bool.false_ne_true nofun
    | positive => exact iff_of_true rfl rfl

/-- A number that is zero or positive is positive if it differs from zero. -/
theorem isPositive_of_agrees {u : UnpackedFloat} (h : Agrees .positive u)
    (hne : u.beq (.zero .positive) = false) : IsPositive u := by
  cases u with
  | notANumber => exact h
  | infinity s => exact h
  | zero s => cases hne
  | finite s m e hm => exact h

/-- A positive number is not below one that is not. -/
theorem not_le_of_agrees {u v : UnpackedFloat} (hu : Agrees .negative u) (hv : IsPositive v) :
    v.le u = false := by
  cases v with
  | notANumber => exact hv.elim
  | zero t => exact hv.elim
  | infinity t =>
    obtain rfl : t = .positive := hv
    cases u with
    | notANumber => rfl
    | infinity s =>
      obtain rfl : s = .negative := hu
      rfl
    | zero s => rfl
    | finite s m e hm => rfl
  | finite t m e hm =>
    obtain rfl : t = .positive := hv
    cases u with
    | notANumber => rfl
    | infinity s =>
      obtain rfl : s = .negative := hu
      rfl
    | zero s => rfl
    | finite s m' e' hm' =>
      obtain rfl : s = .negative := hu
      rfl

/-- Numbers of which one is undefined have no order. -/
theorem compare_eq_none {x y : Float} (h : Scalar.IsUndefined x ∨ Scalar.IsUndefined y) :
    (unpacked x).compare (unpacked y) = none := by
  rw [isUndefined_iff, isUndefined_iff] at h
  obtain hx | hy := h
  · rw [hx]
    rfl
  · rw [hy]
    cases unpacked x <;> rfl

/-! ### The laws -/

/-- If an operation on unpacked numbers is undefined, then so is the packed result. -/
theorem isUndefined_of {r : Float} {u : UnpackedFloat} (hr : unpacked r = repacked u)
    (hu : u = .notANumber) : Scalar.IsUndefined r := by
  rw [isUndefined_iff, hr, hu]
  rfl

/-- A unary operation propagates undefined numbers if it does so on unpacked numbers. -/
theorem isUndefined_of_unary (op : UnpackedFloat → UnpackedFloat)
    (hop : op .notANumber = .notANumber) {x r : Float}
    (hr : unpacked r = repacked (op (unpacked x)))
    (h : Scalar.IsUndefined x) : Scalar.IsUndefined r := by
  refine isUndefined_of hr ?_
  rw [(isUndefined_iff x).1 h, hop]

/-- A binary operation propagates undefined numbers if it does so on unpacked numbers. -/
theorem isUndefined_of_binary {op : UnpackedFloat → UnpackedFloat → UnpackedFloat}
    (hleft : ∀ v, op .notANumber v = .notANumber) (hright : ∀ u, op u .notANumber = .notANumber)
    {x y r : Float} (hr : unpacked r = repacked (op (unpacked x) (unpacked y)))
    (h : Scalar.IsUndefined x ∨ Scalar.IsUndefined y) : Scalar.IsUndefined r := by
  refine isUndefined_of hr ?_
  rw [isUndefined_iff, isUndefined_iff] at h
  obtain hx | hy := h
  · rw [hx]
    exact hleft _
  · rw [hy]
    exact hright _

/-- A result that is undefined or not negative before it is packed is so afterwards. -/
theorem nonneg_or_isUndefined {r : Float} {u : UnpackedFloat} (hr : unpacked r = repacked u)
    (hu : u = .notANumber ∨ Agrees .positive u) : Scalar.IsUndefined r ∨ (0 : Float) ≤ r := by
  obtain hundef | hagrees := hu
  · exact .inl (isUndefined_of hr hundef)
  · refine .inr ((nonneg_iff r).2 ?_)
    rw [hr]
    exact hagrees.repacked

/-- A result that is undefined or not positive before it is packed is so afterwards. -/
theorem nonpos_or_isUndefined {r : Float} {u : UnpackedFloat} (hr : unpacked r = repacked u)
    (hu : u = .notANumber ∨ Agrees .negative u) : Scalar.IsUndefined r ∨ r ≤ (0 : Float) := by
  obtain hundef | hagrees := hu
  · exact .inl (isUndefined_of hr hundef)
  · refine .inr ((nonpos_iff r).2 ?_)
    rw [hr]
    exact hagrees.repacked

end Binary64

open Binary64 Float.Model

/-- Binary64 propagates undefined numbers. -/
instance : Scalar.PropagatesUndefined Float where
  add _ _ h := isUndefined_of_binary (fun _ => rfl) (fun u => by cases u <;> rfl) rfl h
  sub _ _ h := isUndefined_of_binary (fun _ => rfl) (fun u => by cases u <;> rfl) rfl h
  mul _ _ h := isUndefined_of_binary (fun _ => rfl) (fun u => by cases u <;> rfl) rfl h
  div _ _ h := isUndefined_of_binary (fun _ => rfl) (fun u => by cases u <;> rfl) rfl h
  sqrt _ h := isUndefined_of_unary (UnpackedFloat.sqrt .binary64) rfl rfl h
  mag _ h := isUndefined_of_unary UnpackedFloat.abs rfl rfl h
  not_lt x y h hlt := by
    have hcompare := (lt_iff x y).1 hlt
    rw [UnpackedFloat.lt, compare_eq_none h] at hcompare
    cases hcompare
  not_le x y h hle := by
    have hcompare := (le_iff x y).1 hle
    rw [UnpackedFloat.le, compare_eq_none h] at hcompare
    cases hcompare
  beq x y h := by
    change ((unpacked x).compare (unpacked y) == some .eq) = false
    rw [compare_eq_none h]
    rfl

/-- Binary64 keeps signs. -/
instance : Scalar.KeepsSigns Float where
  square_nonneg x := nonneg_or_isUndefined rfl (agrees_mul_self (unpacked x))
  add_nonneg x y hx hy :=
    nonneg_or_isUndefined rfl (.inr (((nonneg_iff x).1 hx).add ((nonneg_iff y).1 hy)))
  div_nonneg x y hx hy :=
    nonneg_or_isUndefined rfl (((nonneg_iff x).1 hx).div ((pos_iff y).1 hy))
  div_nonpos x y hx hy :=
    nonpos_or_isUndefined rfl (((nonpos_iff x).1 hx).div ((pos_iff y).1 hy))
  pos_of_nonneg x hx hne := (pos_iff x).2 (isPositive_of_agrees ((nonneg_iff x).1 hx) hne)
  not_le_of_nonpos x y hx hy hle := by
    have hfalse := not_le_of_agrees ((nonpos_iff x).1 hx) ((pos_iff y).1 hy)
    exact Bool.eq_false_iff.1 hfalse ((le_iff y x).1 hle)
  zero_nonpos := by decide
  neg_one_nonpos := by decide
  half_pos := by decide
  threshold_pos := by decide

end NonlinearSolve

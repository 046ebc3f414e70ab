import Mathlib.Data.Nat.ModEq
import NonlinearSolve.Proofs.Exact.Arithmetic
import NonlinearSolve.Proofs.ForwardDifference.Rounds

/-! # Banded differences

If every residual depends on the unknowns of a band only, then no residual depends on two unknowns
that banded differences displace together (`InBand.eq_of_mod_eq`). So the entries within the band
are those of dense differences, whatever the arithmetic is, and in exact arithmetic the others are
zero in either case. `banded_agrees_with_dense` says so, with the number of evaluations that this
takes. -/

namespace NonlinearSolve

variable {σ α : Type} {m n : Nat}

/-! ### Residuals that can always be evaluated -/

/-- The residuals can always be evaluated, and they are those of the function `f`. -/
def Problem.Yields (p : Problem σ α m n) (f : Vec α n → Vec α m) : Prop :=
  ∀ x s, (p.evaluate x s).1 = .ok (f x)

/-- Recording the calls does not change what a problem yields. -/
theorem Problem.Yields.traced {p : Problem σ α m n} {f : Vec α n → Vec α m} (hp : p.Yields f) :
    p.traced.Yields f := fun x s => hp x s.1

/-- Then no call of a round aborts. -/
theorem Problem.Round.of_yields {p : Problem σ α m n} {f : Vec α n → Vec α m} (hp : p.Yields f)
    {point : Nat → Vec α n} {limit : Nat} {s : σ} (r : p.Round point limit s) :
    r.result = .ok () ∧ r.done = limit ∧ ∀ c < limit, r.values c = f (point c) := by
  obtain ⟨hdone, hresult, -⟩ | ⟨-, e, -, heval⟩ := r.ends
  · refine ⟨hresult, hdone, ?_⟩
    intro c hc
    have hok := hp (point c) (r.states c)
    rw [r.evaluate_eq c (hc.trans_eq hdone.symm)] at hok
    exact Except.ok.inj hok
  · have hok := hp (point r.done) (r.states r.done)
    rw [heval] at hok
    cases hok

namespace ForwardDifference

/-! ### Bands -/

/-- Residual `i` of `f` depends on unknown `j` only if the entry in row `i` and column `j` lies in
the band. -/
def DependsInBand (ml mu : Nat) (f : Vec α n → Vec α n) : Prop :=
  ∀ i j, ¬ InBand ml mu i j → ∀ x t, f (x.set j t) i = f x i

variable {ml mu : Nat} {f : Vec α n → Vec α n}

/-- Points that agree within the band have the same residual. -/
theorem DependsInBand.congr (hf : DependsInBand ml mu f) {i : Fin n} {x y : Vec α n}
    (h : ∀ j, InBand ml mu i j → x j = y j) : f x i = f y i := by
  classical
  -- the unknowns outside the band are changed one after the other
  have hloop := foldl_invariant
    (f := fun (z : Vec α n) j => if InBand ml mu i j then z else z.set j (y j)) (b := x)
    (motive := fun k (z : Vec α n) => f z i = f x i ∧
      ∀ j, j.val < k ∨ InBand ml mu i j → z j = y j)
    ⟨rfl, fun j hj => h j (hj.resolve_left (Nat.not_lt_zero _))⟩ fun k z hz => by
      obtain ⟨hsame, hagree⟩ := hz
      by_cases hband : InBand ml mu i k
      · rw [if_pos hband]
        refine ⟨hsame, ?_⟩
        intro j hj
        obtain hlt | hj := hj
        · obtain hlt | heq := Nat.lt_succ_iff_lt_or_eq.1 hlt
          · exact hagree j (.inl hlt)
          · exact hagree j (.inr (Fin.ext heq ▸ hband))
        · exact hagree j (.inr hj)
      · rw [if_neg hband]
        refine ⟨(hf i k hband z (y k)).trans hsame, ?_⟩
        intro j hj
        rw [Vec.set_apply]
        by_cases hjk : j = k
        · rw [if_pos hjk, hjk]
        · rw [if_neg hjk]
          have hne := Fin.val_ne_of_ne hjk
          exact hagree j (hj.imp_left (by omega))
  obtain ⟨hsame, hagree⟩ := hloop
  rw [← hsame]
  exact congrArg (f · i) (Vec.ext fun j => hagree j (.inl j.isLt))

/-- Different unknowns of one group are too far apart to be both in the band of a residual. -/
theorem InBand.eq_of_mod_eq {i j k : Fin n} (hj : InBand ml mu i j) (hk : InBand ml mu i k)
    (h : j.val % bandWidth ml mu = k.val % bandWidth ml mu) : j = k := by
  refine Fin.ext (Nat.ModEq.eq_of_abs_lt h ?_)
  obtain ⟨hj₁, hj₂⟩ := hj
  obtain ⟨hk₁, hk₂⟩ := hk
  rw [bandWidth, abs_lt]
  omega

section Entries

variable [Scalar α] {i j : Fin n} (eps : α) (x : Vec α n)

/-- Within the band, displacing all unknowns of a group has the effect of displacing one of them. -/
theorem DependsInBand.displaced_group (hf : DependsInBand ml mu f) (hij : InBand ml mu i j) :
    f (displaced eps (fun k => k.val % bandWidth ml mu == j.val % bandWidth ml mu) x) i =
      f (displaced eps (fun k => k.val == j.val) x) i := by
  refine hf.congr ?_
  intro k hk
  have hgroup : (k.val % bandWidth ml mu == j.val % bandWidth ml mu) = (k.val == j.val) := by
    rw [Bool.eq_iff_iff, beq_iff_eq, beq_iff_eq]
    exact ⟨fun h => congrArg Fin.val (hk.eq_of_mod_eq hij h), fun h => h ▸ rfl⟩
  simp only [displaced, Vec.of_apply, hgroup]

/-- Outside the band, displacing an unknown has no effect. -/
theorem DependsInBand.displaced_single (hf : DependsInBand ml mu f) (hij : ¬ InBand ml mu i j) :
    f (displaced eps (fun k => k.val == j.val) x) i = f x i := by
  refine hf.congr ?_
  intro k hk
  have hkj : ¬ (k.val == j.val) = true := fun h => hij (Fin.ext (beq_iff_eq.1 h) ▸ hk)
  simp only [displaced, Vec.of_apply, if_neg hkj]

end Entries

/-! ### Differences of a function -/

section Differences

variable [Scalar α] (nm : Numerics α) (epsfcn : α) (x : Vec α n)

/-- Dense differences of a problem that never aborts, entry by entry. -/
theorem dense_of_yields {p : Problem σ α m n} {f : Vec α n → Vec α m} (hp : p.Yields f)
    (fvec : Vec α m) (a : Mat α m n) (s : σ) :
    (dense p nm epsfcn x fvec a s).1 = .ok () ∧
    (dense p nm epsfcn x fvec a s).2.2.1 = Mat.of fun i j =>
      (f (displaced (relativeStep nm epsfcn) (fun k => k.val == j.val) x) i - fvec i) /
        displacement (relativeStep nm epsfcn) (x j) := by
  obtain ⟨r⟩ := p.nonempty_round
    (fun c => displaced (relativeStep nm epsfcn) (fun j => j.val == c) x) n s
  obtain ⟨hresult, hdone, hvalues⟩ := r.of_yields hp
  rw [dense_eq_sweep, sweep_eq (fun _ => rfl) r, written_dense]
  refine ⟨hresult, ?_⟩
  ext i j
  rw [Mat.of_apply, Mat.of_apply, hdone, if_pos j.isLt, hvalues j j.isLt]

/-- Banded differences of a problem that never aborts, entry by entry: a band as wide as the matrix
is dense, and nothing is left outside of a narrower one. -/
theorem banded_of_yields {p : Problem σ α n n} (hp : p.Yields f) (ml mu : Nat) (fvec : Vec α n)
    (a : Mat α n n) (s : σ) :
    (banded p nm ml mu epsfcn x fvec a s).1 = .ok () ∧
    (banded p nm ml mu epsfcn x fvec a s).2.2.1 = Mat.of fun i j =>
      if n ≤ bandWidth ml mu ∨ InBand ml mu i j then
        (f (displaced (relativeStep nm epsfcn)
          (fun k => k.val % bandWidth ml mu == j.val % bandWidth ml mu) x) i - fvec i) /
            displacement (relativeStep nm epsfcn) (x j)
      else 0 := by
  obtain ⟨r⟩ := p.nonempty_round
    (fun c => displaced (relativeStep nm epsfcn) (fun j => j.val % bandWidth ml mu == c) x)
    (min (bandWidth ml mu) n) s
  obtain ⟨hresult, hdone, hvalues⟩ := r.of_yields hp
  rw [banded_eq_sweep, sweep_eq (fun _ => rfl) r, written_banded]
  refine ⟨hresult, ?_⟩
  ext i j
  have hj := mod_bandWidth_lt ml mu j
  rw [Mat.of_apply, Mat.of_apply, hdone, if_pos hj, hvalues _ hj]

/-- Within the band, banded differences are the dense ones. -/
theorem banded_eq_dense_of_inBand {p : Problem σ α n n} (hp : p.Yields f)
    (hf : DependsInBand ml mu f) {i j : Fin n} (hij : InBand ml mu i j) (fvec : Vec α n)
    (a a' : Mat α n n) (s s' : σ) :
    (banded p nm ml mu epsfcn x fvec a s).2.2.1 i j =
      (dense p nm epsfcn x fvec a' s').2.2.1 i j := by
  rw [(banded_of_yields nm epsfcn x hp ml mu fvec a s).2,
    (dense_of_yields nm epsfcn x hp fvec a' s').2, Mat.of_apply, Mat.of_apply, if_pos (.inr hij),
    hf.displaced_group _ x hij]

end Differences

/-- In exact arithmetic, banded differences are the dense ones everywhere. -/
theorem banded_eq_dense (nm : Numerics ℝ) {p : Problem σ ℝ n n} {f : Vec ℝ n → Vec ℝ n}
    (hp : p.Yields f) (hf : DependsInBand ml mu f) (epsfcn : ℝ) (x : Vec ℝ n) (a a' : Mat ℝ n n)
    (s s' : σ) :
    (banded p nm ml mu epsfcn x (f x) a s).2.2.1 =
      (dense p nm epsfcn x (f x) a' s').2.2.1 := by
  ext i j
  by_cases hij : InBand ml mu i j
  · exact banded_eq_dense_of_inBand nm epsfcn x hp hf hij (f x) a a' s s'
  · rw [(banded_of_yields nm epsfcn x hp ml mu (f x) a s).2,
      (dense_of_yields nm epsfcn x hp (f x) a' s').2, Mat.of_apply, Mat.of_apply]
    have hsingle := hf.displaced_single (relativeStep nm epsfcn) x hij
    by_cases hwide : n ≤ bandWidth ml mu
    · -- a group of a wide band is a single unknown
      have hmod : ∀ k : Fin n, k.val % bandWidth ml mu = k.val :=
        fun k => Nat.mod_eq_of_lt (k.isLt.trans_le hwide)
      simp only [hwide, true_or, if_true, hmod]
    · rw [if_neg (not_or.2 ⟨hwide, hij⟩), hsingle, sub_self, zero_div]

end ForwardDifference

open ForwardDifference

/-- For residuals each of which depends on the unknowns of a band only, banded differences leave the
unknowns as they were and evaluate the residuals once for every diagonal of the band, or once for
every unknown if these are fewer; it makes no difference if the number of diagonals saturates at a
number that is not less than that of the unknowns. The entries within the band are those of dense
differences, whatever the matrices were before, and in exact arithmetic so are all others. -/
theorem banded_agrees_with_dense {n ml mu : Nat} :
    (∀ {σ α : Type} [Scalar α] (nm : Numerics α) (p : Problem σ α n n) (f : Vec α n → Vec α n),
      p.Yields f → DependsInBand ml mu f →
      ∀ (epsfcn : α) (x : Vec α n) (a a' : Mat α n n) (s s' : σ) (tr : Array (Event α n n)),
        let b := banded p nm ml mu epsfcn x (f x) a s
        let d := dense p nm epsfcn x (f x) a' s'
        (b.1 = .ok () ∧ d.1 = .ok ()) ∧ (b.2.1 = x ∧ d.2.1 = x) ∧
        (∀ i j : Fin n, InBand ml mu i j → b.2.2.1 i j = d.2.2.1 i j) ∧
        ∃ calls, (banded p.traced nm ml mu epsfcn x (f x) a (s, tr)).2.2.2.2 = tr ++ calls ∧
          evaluationCalls calls = calls.size ∧
          ∀ limit, n ≤ limit → calls.size = min (min (ml + mu + 1) limit) n) ∧
    ∀ {σ : Type} (nm : Numerics ℝ) (p : Problem σ ℝ n n) (f : Vec ℝ n → Vec ℝ n),
      p.Yields f → DependsInBand ml mu f →
      ∀ (epsfcn : ℝ) (x : Vec ℝ n) (a a' : Mat ℝ n n) (s s' : σ),
        (banded p nm ml mu epsfcn x (f x) a s).2.2.1 =
          (dense p nm epsfcn x (f x) a' s').2.2.1 := by
  refine ⟨?_, fun nm p f hp hf => banded_eq_dense nm hp hf⟩
  intro σ α _ nm p f hp hf epsfcn x a a' s s' tr b d
  refine ⟨⟨(banded_of_yields nm epsfcn x hp ml mu (f x) a s).1,
    (dense_of_yields nm epsfcn x hp (f x) a' s').1⟩, ⟨banded_point .., dense_point ..⟩,
    fun i j hij => banded_eq_dense_of_inBand nm epsfcn x hp hf hij (f x) a a' s s', ?_⟩
  obtain ⟨calls, htr, hcalls, -, hsize⟩ := evaluates_banded p nm ml mu epsfcn x (f x) a s tr
  refine ⟨calls, htr, hcalls, ?_⟩
  intro limit hlimit
  rw [hsize (banded_of_yields nm epsfcn x hp.traced ml mu (f x) a (s, tr)).1, bandWidth]
  omega

/-- Residuals that depend on an unknown and the one before it are differenced with two evaluations
for five unknowns. -/
theorem banded_agrees_with_dense_bidiagonal :
    let f : Vec ℝ 5 → Vec ℝ 5 := fun x =>
      Vec.of fun i => if h : 0 < i.val then x i ^ 2 - x ⟨i - 1, by omega⟩ else x i ^ 2
    let p : Problem Unit ℝ 5 5 := { evaluate := fun x s => (.ok (f x), s) }
    let nm := Numerics.exact 1 1 true
    let x : Vec ℝ 5 := Vec.const 5 2
    p.Yields f ∧ DependsInBand 1 0 f ∧
      (banded p nm 1 0 0 x (f x) (Mat.zero 5 5) ()).2.2.1 =
        (dense p nm 0 x (f x) (Mat.identity 5) ()).2.2.1 ∧
      (banded p.traced nm 1 0 0 x (f x) (Mat.zero 5 5) ((), #[])).2.2.2.2.size = 2 := by
  intro f p nm x
  have hp : p.Yields f := fun _ _ => rfl
  have hf : DependsInBand 1 0 f := by
    intro i j hij x t
    have hi : i ≠ j := by
      rintro rfl
      exact hij ⟨by omega, by omega⟩
    simp only [f, Vec.of_apply, Vec.set_apply, if_neg hi]
    split_ifs with hpos hj
    · -- the unknown before is in the band as well
      refine absurd ?_ hij
      rw [← hj]
      exact ⟨Nat.sub_le _ _, by simp only; omega⟩
    · rfl
    · rfl
  obtain ⟨hany, hexact⟩ := @banded_agrees_with_dense 5 1 0
  obtain ⟨-, -, -, calls, htr, -, hsize⟩ :=
    hany nm p f hp hf 0 x (Mat.zero 5 5) (Mat.identity 5) () () #[]
  refine ⟨hp, hf, hexact nm p f hp hf 0 x _ _ _ _, ?_⟩
  rw [htr, Array.empty_append]
  exact hsize 5 le_rfl

end NonlinearSolve

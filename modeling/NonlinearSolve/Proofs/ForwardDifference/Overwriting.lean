import NonlinearSolve.Proofs.ForwardDifference.Sweep

/-! # What forward differences overwrite

A sweep writes over a matrix that is already there. For residuals that are a function the sweep is
computed by `filled`, and if its groups contain every unknown and its writer does not look at old
entries, nothing is left of the old matrix (`filled_congr`). That is so for dense differences and,
if there are as many residuals as unknowns, for banded ones (`dense_overwrites`,
`banded_overwrites`). If evaluations of the function may fail, it is still so for every sweep that
is completed (`exists_banded_matrix`). -/

namespace NonlinearSolve

variable {σ α : Type} {m n : Nat}

/-- The residuals can always be evaluated, they are those of the function `f`, and their evaluation
has no effect. -/
def Problem.IsPure (p : Problem σ α m n) (f : Vec α n → Vec α m) : Prop :=
  ∀ x s, p.evaluate x s = (.ok (f x), s)

/-- A problem without side effects computes its residuals. -/
theorem Problem.IsPure.computes {p : Problem σ α m n} {f : Vec α n → Vec α m} (hp : p.IsPure f) :
    p.Computes f := by
  intro x s v s' heval
  rw [hp x s] at heval
  cases heval
  rfl

/-- An approximation of the Jacobian by calls of the residuals, from the point, the residuals there
and a matrix to write to. -/
abbrev Differencing (σ α : Type) (m n : Nat) :=
  Vec α n → Vec α m → Mat α m n → σ → Except Abort Unit × Vec α n × Mat α m n × σ

/-- The problem with the Jacobian that `difference` makes of its residuals. -/
def Problem.differentiated [Scalar α] (p : Problem σ α m n) (difference : Differencing σ α m n) :
    JacobianProblem σ α m n where
  toProblem := p
  jacobian x s :=
    match p.evaluate x s with
    | (.error e, s) => (.error e, s)
    | (.ok fvec, s) =>
      let out := difference x fvec (Mat.zero m n) s
      (out.1.map fun _ => out.2.2.1, out.2.2.2)

/-- An approximation of the Jacobian that always succeeds, without an effect and whatever the matrix
was before. -/
def Differencing.Overwrites (difference : Differencing σ α m n) (f : Vec α n → Vec α m) : Prop :=
  ∀ x, ∃ b, ∀ a s, difference x (f x) a s = (.ok (), x, b, s)

/-- What is written over another matrix is the Jacobian of the differentiated problem. -/
theorem Differencing.Overwrites.exists_jacobian [Scalar α] {p : Problem σ α m n}
    {f : Vec α n → Vec α m} {difference : Differencing σ α m n} (hd : difference.Overwrites f)
    (hp : p.IsPure f) (x : Vec α n) :
    ∃ b, (∀ s, (p.differentiated difference).jacobian x s = (.ok b, s)) ∧
      ∀ a s, difference x (f x) a s = (.ok (), x, b, s) := by
  obtain ⟨b, hb⟩ := hd x
  refine ⟨b, ?_, hb⟩
  intro s
  simp only [Problem.differentiated, hp x s, hb]
  rfl

namespace ForwardDifference

variable [Scalar α]

/-- The matrix `a` after a sweep over `groups` at `x`, where the residuals are `fvec`. -/
def filled (f : Vec α n → Vec α m) (eps : α) (write : Writer α m n) (fvec : Vec α m) (x : Vec α n)
    (groups : List (Fin n → Bool)) (a : Mat α m n) : Mat α m n :=
  groups.foldl (fun a group => fill eps write x fvec (f (displaced eps group x)) group a) a

section Sweep

variable {p : Problem σ α m n} {f : Vec α n → Vec α m} (hp : p.IsPure f) (eps : α)
  {write : Writer α m n} (fvec : Vec α m) (x : Vec α n)

include hp in
/-- A sweep for residuals that are a function. -/
theorem sweep_of_isPure (groups : List (Fin n → Bool)) (a : Mat α m n) (s : σ) :
    sweep p eps write fvec groups x a s = (.ok (), x, filled f eps write fvec x groups a, s) := by
  induction groups generalizing a s with
  | nil => rfl
  | cons group groups ih =>
    rw [sweep, hp (displaced eps group x) s]
    simp only [restored_displaced]
    exact ih _ s

/-- A sweep that is completed, for residuals that are a function whenever they can be evaluated. -/
theorem sweep_of_computes {p : Problem σ α m n} (hp : p.Computes f) {groups : List (Fin n → Bool)}
    {a : Mat α m n} {s : σ} (hok : (sweep p eps write fvec groups x a s).1 = .ok ()) :
    (sweep p eps write fvec groups x a s).2.2.1 = filled f eps write fvec x groups a := by
  induction groups generalizing a s with
  | nil => rfl
  | cons group groups ih =>
    rw [sweep] at hok ⊢
    rcases heval : p.evaluate (displaced eps group x) s with ⟨e | v, s'⟩
    · rw [heval] at hok
      cases hok
    · obtain rfl : v = f (displaced eps group x) := hp _ s v s' heval
      simp only [heval, restored_displaced] at hok ⊢
      exact ih hok

/-- The writer does not look at the old entries. -/
def Writer.Overwrites (write : Writer α m n) : Prop :=
  ∀ j q old old', write j q old = write j q old'

/-- Only columns that are in no group can show what the matrix was before. -/
theorem filled_congr (hwrite : write.Overwrites) {groups : List (Fin n → Bool)}
    {a a' : Mat α m n} (ha : ∀ j, (∀ group ∈ groups, group j = false) → a.col j = a'.col j) :
    filled f eps write fvec x groups a = filled f eps write fvec x groups a' := by
  induction groups generalizing a a' with
  | nil =>
    ext i j
    exact congrArg (· i) (ha j fun _ h => absurd h List.not_mem_nil)
  | cons group groups ih =>
    refine ih ?_
    intro j hj
    simp only [fill, Mat.col_ofCols]
    by_cases hgroup : group j
    · rw [if_pos hgroup, if_pos hgroup, hwrite j _ (a.col j) (a'.col j)]
    · -- a column that is not in this group either was the same already
      rw [if_neg hgroup, if_neg hgroup]
      refine ha j ?_
      rintro group' (_ | ⟨_, hmem⟩)
      · exact Bool.eq_false_of_not_eq_true hgroup
      · exact hj group' hmem

/-- If the groups contain every unknown, nothing is left of the old matrix. -/
theorem filled_eq (hwrite : write.Overwrites) {groups : List (Fin n → Bool)}
    (hgroups : ∀ j, ∃ group ∈ groups, group j = true) (a a' : Mat α m n) :
    filled f eps write fvec x groups a = filled f eps write fvec x groups a' := by
  refine filled_congr eps fvec x hwrite ?_
  intro j hj
  obtain ⟨group, hmem, htrue⟩ := hgroups j
  rw [hj group hmem] at htrue
  cases htrue

include hp in
/-- A sweep over groups that contain every unknown overwrites the matrix. -/
theorem sweep_overwrites (hwrite : write.Overwrites) {groups : List (Fin n → Bool)}
    (hgroups : ∀ j, ∃ group ∈ groups, group j = true) :
    Differencing.Overwrites (fun x fvec a s => sweep p eps write fvec groups x a s) f := by
  intro x
  refine ⟨filled f eps write (f x) x groups (Mat.zero m n), ?_⟩
  intro a s
  simp only [sweep_of_isPure hp]
  rw [filled_eq eps (f x) x hwrite hgroups a (Mat.zero m n)]

end Sweep

variable {p : Problem σ α m n} {f : Vec α n → Vec α m} (nm : Numerics α)

/-- With one column for each call, every column has its call. -/
theorem mem_singletons (j : Fin n) : ∃ group ∈ singletons n, group j = true := by
  refine ⟨fun k => k == j, ?_, beq_self_eq_true j⟩
  exact List.mem_map_of_mem (List.mem_finRange j)

/-- Every column is in the group of its residue. -/
theorem mem_residueClasses {k : Nat} (hk : 0 < k) (j : Fin n) :
    ∃ group ∈ residueClasses n k, group j = true := by
  refine ⟨fun i => i.val % k == j.val % k, ?_, beq_self_eq_true _⟩
  exact List.mem_map_of_mem (List.mem_range.2 (Nat.mod_lt _ hk))

/-- Dense differences overwrite the matrix. -/
theorem dense_overwrites (hp : p.IsPure f) (epsfcn : α) :
    Differencing.Overwrites (dense p nm epsfcn) f :=
  sweep_overwrites hp _ (fun _ _ _ _ => rfl) mem_singletons

/-- Banded differences for a square matrix are a sweep over groups that contain every unknown, with
a writer that does not look at old entries. -/
theorem exists_banded_sweep (p : Problem σ α n n) (ml mu : Nat) (epsfcn : α) :
    ∃ (write : Writer α n n) (groups : List (Fin n → Bool)), write.Overwrites ∧
      (∀ j, ∃ group ∈ groups, group j = true) ∧
      banded p nm ml mu epsfcn = fun x fvec a s =>
        sweep p (relativeStep nm epsfcn) write fvec groups x a s := by
  by_cases hwide : n ≤ bandWidth ml mu
  · refine ⟨fun _ q _ => q, singletons n, fun _ _ _ _ => rfl, mem_singletons, ?_⟩
    funext x fvec a s
    rw [banded, if_pos hwide, dense]
  · refine ⟨writeBand ml mu, residueClasses n (bandWidth ml mu), ?_,
      mem_residueClasses (Nat.succ_pos _), ?_⟩
    · -- in a square matrix there are no rows that belong to no band
      intro j q old old'
      ext i
      simp only [writeBand, Vec.of_apply, if_pos i.isLt]
    · funext x fvec a s
      rw [banded, if_neg hwide]

/-- Banded differences overwrite a square matrix. -/
theorem banded_overwrites {p : Problem σ α n n} {f : Vec α n → Vec α n} (hp : p.IsPure f)
    (ml mu : Nat) (epsfcn : α) : Differencing.Overwrites (banded p nm ml mu epsfcn) f := by
  obtain ⟨write, groups, hwrite, hgroups, hsweep⟩ := exists_banded_sweep nm p ml mu epsfcn
  rw [hsweep]
  exact sweep_overwrites hp _ hwrite hgroups

/-- Banded differences that are completed depend on the point alone. -/
theorem exists_banded_matrix {p : Problem σ α n n} {f : Vec α n → Vec α n} (hp : p.Computes f)
    (ml mu : Nat) (epsfcn : α) :
    ∃ jac : Vec α n → Mat α n n, ∀ x a s, (banded p nm ml mu epsfcn x (f x) a s).1 = .ok () →
      (banded p nm ml mu epsfcn x (f x) a s).2.2.1 = jac x := by
  obtain ⟨write, groups, hwrite, hgroups, hsweep⟩ := exists_banded_sweep nm p ml mu epsfcn
  refine ⟨fun x => filled f (relativeStep nm epsfcn) write (f x) x groups (Mat.zero n n), ?_⟩
  intro x a s hok
  rw [hsweep] at hok ⊢
  rw [sweep_of_computes _ (f x) x hp hok]
  exact filled_eq _ (f x) x hwrite hgroups a (Mat.zero n n)

end ForwardDifference

end NonlinearSolve

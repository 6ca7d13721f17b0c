import Mathlib.Data.List.Infix

/-! Differences of consecutive elements and runs of equal elements of a list. -/

namespace XEmacs.Lib

section Differences

variable {G : Type*} [Sub G]

/-- The differences of the elements from those before them, the first from a given one. -/
def differences (prev : G) : List G → List G
  | [] => []
  | cur :: rest => (cur - prev) :: differences cur rest

variable {prev cur : G} {l : List G}

@[simp] theorem differences_nil (prev : G) : differences prev [] = [] := rfl

@[simp] theorem differences_cons (prev cur : G) (l : List G) :
    differences prev (cur :: l) = (cur - prev) :: differences cur l := rfl

@[simp] theorem length_differences (prev : G) (l : List G) : (differences prev l).length = l.length := by
  induction l generalizing prev with
  | nil => rfl
  | cons cur l ih => rw [differences_cons, List.length_cons, ih, List.length_cons]

end Differences

section Runs

variable {α : Type*} (same : α → α → Bool)

def runsFrom (cur : α) (count : ℕ) : List α → List (α × ℕ)
  | [] => [(cur, count)]
  | x :: rest => if same cur x then runsFrom cur (count + 1) rest else (cur, count) :: runsFrom x 1 rest

def runs : List α → List (α × ℕ)
  | [] => []
  | x :: rest => runsFrom same x 1 rest

def expand (rs : List (α × ℕ)) : List α := rs.flatMap fun r => List.replicate r.2 r.1

@[simp] theorem expand_nil : expand ([] : List (α × ℕ)) = [] := rfl

@[simp] theorem expand_cons (r : α × ℕ) (rs : List (α × ℕ)) :
    expand (r :: rs) = List.replicate r.2 r.1 ++ expand rs := rfl

variable {same} {l : List α} {cur : α} {count : ℕ} {r : α × ℕ}

theorem expand_runsFrom (hsame : ∀ x y, same x y = true → x = y) (cur : α) (count : ℕ) (l : List α) :
    expand (runsFrom same cur count l) = List.replicate count cur ++ l := by
  induction l generalizing cur count with
  | nil => simp [runsFrom]
  | cons x l ih =>
    rw [runsFrom]
    split_ifs with h
    · rw [ih, ← hsame cur x h, List.replicate_succ', List.append_assoc, List.singleton_append]
    · rw [expand_cons, ih, List.replicate_one, List.singleton_append]

theorem expand_runs (hsame : ∀ x y, same x y = true → x = y) (l : List α) : expand (runs same l) = l := by
  cases l with
  | nil => rfl
  | cons x l => exact expand_runsFrom hsame x 1 l

theorem pos_of_mem_runsFrom (hcount : 0 < count) (h : r ∈ runsFrom same cur count l) : 0 < r.2 := by
  induction l generalizing cur count with
  | nil =>
    rw [runsFrom, List.mem_singleton] at h
    rw [h]
    exact hcount
  | cons x l ih =>
    rw [runsFrom] at h
    split_ifs at h
    · exact ih (Nat.succ_pos count) h
    · rcases List.mem_cons.mp h with rfl | h
      · exact hcount
      · exact ih Nat.one_pos h

theorem pos_of_mem_runs (h : r ∈ runs same l) : 0 < r.2 := by
  cases l with
  | nil => exact absurd h List.not_mem_nil
  | cons x l => exact pos_of_mem_runsFrom Nat.one_pos h

theorem replicate_infix_expand {rs : List (α × ℕ)} (h : r ∈ rs) : List.replicate r.2 r.1 <:+: expand rs := by
  obtain ⟨before, after, rfl⟩ := List.append_of_mem h
  exact ⟨expand before, expand after, by simp [expand]⟩

theorem replicate_infix_of_mem_runs (hsame : ∀ x y, same x y = true → x = y) (h : r ∈ runs same l) :
    List.replicate r.2 r.1 <:+: l := by
  have hinfix := replicate_infix_expand h
  rwa [expand_runs hsame] at hinfix

theorem runsFrom_replicate (hrefl : same cur cur = true) (count n : ℕ) :
    runsFrom same cur count (List.replicate n cur) = [(cur, count + n)] := by
  induction n generalizing count with
  | zero => rfl
  | succ n ih =>
    rw [List.replicate_succ, runsFrom, if_pos hrefl, ih, Nat.add_right_comm, Nat.add_assoc]

theorem length_runsFrom_of_isChain (h : (cur :: l).IsChain fun x y => ¬ same x y = true) (count : ℕ) :
    (runsFrom same cur count l).length = l.length + 1 := by
  induction l generalizing cur count with
  | nil => rfl
  | cons x l ih =>
    obtain ⟨hne, hrest⟩ := List.isChain_cons_cons.mp h
    rw [runsFrom, if_neg hne, List.length_cons, ih hrest, List.length_cons]

end Runs

end XEmacs.Lib

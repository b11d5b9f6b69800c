import Mathlib.Data.List.Basic
import Mathlib.Data.List.Nodup

/-! A walk that takes nodes from the front of a queue and puts what they lead to at its
end. What has been queued only grows, and each node of it is visited in its turn. -/
namespace ProxmoxBackup.QueueWalk

structure Walk (Node Mark : Type) where
  visited : List Node
  queue : List Node
  mark : Mark

variable {Node Mark : Type}

/-- `none` is a node that cannot be read: the walk ends there. -/
abbrev Expand (Node Mark : Type) := Mark → Node → Option (List Node × Mark)

def Walk.step (expand : Expand Node Mark) (w : Walk Node Mark) : Walk Node Mark :=
  match w.queue with
  | [] => w
  | node :: rest =>
      match expand w.mark node with
      | none => { visited := w.visited ++ [node], queue := [], mark := w.mark }
      | some (found, mark) =>
          { visited := w.visited ++ [node], queue := rest ++ found, mark }

def Walk.start (root : Node) (mark : Mark) : Walk Node Mark :=
  { visited := [], queue := [root], mark }

def walk (expand : Expand Node Mark) (root : Node) (mark : Mark) : Nat → Walk Node Mark
  | 0 => .start root mark
  | n + 1 => (walk expand root mark n).step expand

/-- Everything queued so far, in order. -/
def Walk.queued (w : Walk Node Mark) : List Node := w.visited ++ w.queue

/-- One turn: nothing is left, or the front node cannot be read, or what it leads to
comes behind everything queued. -/
theorem step_cases (expand : Expand Node Mark) (w : Walk Node Mark) :
    (w.queue = [] ∧ w.step expand = w) ∨
    (∃ node rest, w.queue = node :: rest ∧ expand w.mark node = none ∧
      w.step expand = { visited := w.visited ++ [node], queue := [], mark := w.mark }) ∨
    ∃ node rest found mark, w.queue = node :: rest ∧ expand w.mark node = some (found, mark) ∧
      w.step expand = { visited := w.visited ++ [node], queue := rest ++ found, mark } := by
  cases queued : w.queue with
  | nil => exact .inl ⟨rfl, by simp [Walk.step, queued]⟩
  | cons node rest =>
      right
      cases opened : expand w.mark node with
      | none => exact .inl ⟨node, rest, rfl, opened, by simp [Walk.step, queued, opened]⟩
      | some pair =>
          obtain ⟨found, mark⟩ := pair
          exact .inr ⟨node, rest, found, mark, rfl, opened, by simp [Walk.step, queued, opened]⟩

/-- What one turn preserves holds all along the walk. -/
theorem walk_invariant (expand : Expand Node Mark) {root : Node} {mark : Mark}
    {inv : Walk Node Mark → Prop} (start : inv (.start root mark))
    (kept : ∀ w, inv w → inv (w.step expand)) (n : Nat) : inv (walk expand root mark n) := by
  induction n with
  | zero => exact start
  | succ n ih => exact kept _ ih

/-- With every node readable the front `k` nodes are visited in `k` turns. -/
theorem visited_later (expand : Expand Node Mark) (readable : ∀ mark node, (expand mark node).isSome)
    (root : Node) (mark : Mark) (n k : Nat) (short : k ≤ (walk expand root mark n).queue.length) :
    ∃ more, (walk expand root mark (n + k)).visited =
        (walk expand root mark n).visited ++ (walk expand root mark n).queue.take k ∧
      (walk expand root mark (n + k)).queue = (walk expand root mark n).queue.drop k ++ more := by
  induction k with
  | zero => exact ⟨[], by simp, by simp⟩
  | succ k ih =>
      obtain ⟨more, visited, queue⟩ := ih (by omega)
      have front : (walk expand root mark n).queue.drop k =
          (walk expand root mark n).queue[k] :: (walk expand root mark n).queue.drop (k + 1) :=
        List.drop_eq_getElem_cons (by omega)
      rw [front, List.cons_append] at queue
      rw [← Nat.add_assoc, walk]
      obtain ⟨empty, -⟩ | ⟨node, rest, -, failed, -⟩ |
        ⟨node, rest, found, mark', taken, opened, stepped⟩ :=
        step_cases expand (walk expand root mark (n + k))
      · rw [empty] at queue
        cases queue
      · have ok := readable (walk expand root mark (n + k)).mark node
        rw [failed] at ok
        cases ok
      · rw [queue] at taken
        obtain ⟨rfl, rfl⟩ := List.cons.inj taken
        refine ⟨more ++ found, ?_, ?_⟩
        · rw [stepped, visited, List.append_assoc, List.take_append_getElem]
        · rw [stepped, List.append_assoc]

/-- Everything queued at one time has been visited at a later one, in the order it
was queued. -/
theorem queued_visited (expand : Expand Node Mark)
    (readable : ∀ mark node, (expand mark node).isSome) (root : Node) (mark : Mark) (n : Nat) :
    (walk expand root mark (n + (walk expand root mark n).queue.length)).visited =
      (walk expand root mark n).queued := by
  obtain ⟨-, visited, -⟩ := visited_later expand readable root mark n _ (Nat.le_refl _)
  rw [visited, List.take_length, Walk.queued]

/-- A queued node is at the front at some turn. -/
theorem queued_served (expand : Expand Node Mark)
    (readable : ∀ mark node, (expand mark node).isSome) (root : Node) (mark : Mark) {n : Nat}
    {node : Node} (queued : node ∈ (walk expand root mark n).queued) :
    ∃ m rest, (walk expand root mark m).queue = node :: rest := by
  induction n with
  | zero =>
      have same : node = root := by simpa [Walk.queued, walk, Walk.start] using queued
      exact ⟨0, [], by rw [same]; rfl⟩
  | succ n ih =>
      by_cases before : node ∈ (walk expand root mark n).queued
      · exact ih before
      · have waiting : node ∈ (walk expand root mark (n + 1)).queue := by
          rw [Walk.queued] at queued before
          rw [walk] at queued ⊢
          obtain ⟨-, stepped⟩ | ⟨front, rest, taken, -, stepped⟩ |
            ⟨front, rest, found, mark', taken, -, stepped⟩ :=
            step_cases expand (walk expand root mark n)
          · rw [stepped] at queued
            exact absurd queued before
          · rw [stepped] at queued
            simp [taken] at queued before
            obtain old | rfl := queued
            · exact absurd old before.1
            · exact absurd rfl before.2.1
          · rw [stepped] at queued ⊢
            simp [taken] at queued before ⊢
            tauto
        obtain ⟨i, inside, found⟩ := List.getElem_of_mem waiting
        obtain ⟨more, -, queue⟩ := visited_later expand readable root mark (n + 1) i
          (Nat.le_of_lt inside)
        rw [List.drop_eq_getElem_cons inside, found] at queue
        exact ⟨n + 1 + i, _, queue⟩

/-- A readable front node puts what it leads to behind everything queued. -/
theorem front_found (expand : Expand Node Mark) {root : Node} {mark : Mark} {n : Nat} {node : Node}
    {rest found : List Node} {mark' : Mark} (taken : (walk expand root mark n).queue = node :: rest)
    (opened : expand (walk expand root mark n).mark node = some (found, mark')) :
    (walk expand root mark (n + 1)).queued = (walk expand root mark n).queued ++ found ∧
      (walk expand root mark (n + 1)).mark = mark' := by
  obtain ⟨empty, -⟩ | ⟨node', rest', taken', failed, -⟩ |
    ⟨node', rest', found', mark'', taken', opened', stepped⟩ :=
    step_cases expand (walk expand root mark n)
  · rw [taken] at empty
    cases empty
  · rw [taken] at taken'
    obtain ⟨rfl, -⟩ := List.cons.inj taken'
    rw [opened] at failed
    cases failed
  · rw [taken] at taken'
    obtain ⟨rfl, rfl⟩ := List.cons.inj taken'
    rw [opened] at opened'
    obtain ⟨rfl, rfl⟩ := Prod.mk.inj (Option.some.inj opened')
    rw [walk, stepped, Walk.queued, Walk.queued, taken]
    simp

theorem queued_grows (expand : Expand Node Mark)
    (readable : ∀ mark node, (expand mark node).isSome) (root : Node) (mark : Mark) (n k : Nat) :
    (walk expand root mark n).queued <+: (walk expand root mark (n + k)).queued := by
  induction k with
  | zero => exact List.prefix_rfl
  | succ k ih =>
      apply ih.trans
      rw [← Nat.add_assoc]
      obtain ⟨-, stepped⟩ | ⟨node, rest, -, failed, -⟩ | ⟨node, rest, found, mark', taken, opened, -⟩ :=
        step_cases expand (walk expand root mark (n + k))
      · have same : (walk expand root mark (n + k + 1)).queued =
            (walk expand root mark (n + k)).queued := congrArg Walk.queued stepped
        exact ⟨[], by rw [List.append_nil, same]⟩
      · have ok := readable (walk expand root mark (n + k)).mark node
        rw [failed] at ok
        cases ok
      · rw [(front_found expand taken opened).1]
        exact List.prefix_append _ _

end ProxmoxBackup.QueueWalk

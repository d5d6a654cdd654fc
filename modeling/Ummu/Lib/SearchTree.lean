import Mathlib

/-!
# Search trees of any shape

A binary tree is searched by a predicate that holds from some place of its order on. The descent
gives what a scan of the elements in order gives, whatever the shape of the tree.
-/

namespace Ummu.Lib

inductive SearchTree (α : Type*) where
  | nil
  | node (l : SearchTree α) (a : α) (r : SearchTree α)

namespace SearchTree

variable {α : Type*}

/-- The elements from left to right. -/
def toList : SearchTree α → List α
  | nil => []
  | node l a r => l.toList ++ a :: r.toList

/-- The descent to the first element with `p`; `y` is the last one with `p` that it came past. -/
def lowerBound (p : α → Bool) : SearchTree α → Option α → Option α
  | nil, y => y
  | node l a r, y => if p a then l.lowerBound p (some a) else r.lowerBound p y

/-- The descent to the place of `new`, in front of the first element with `after`; `y` is the
element before that place, and `new` goes in if it is one with `before`. -/
def insertAt (after before : α → Bool) (new : α) : SearchTree α → Option α → Option (SearchTree α)
  | nil, y => if y.all before then some (node nil new nil) else none
  | node l a r, y =>
    if after a then (l.insertAt after before new y).map (fun l => node l a r)
    else (r.insertAt after before new (some a)).map (fun r => node l a r)

/-- `r` behind the last element of `l`. -/
def join : SearchTree α → SearchTree α → SearchTree α
  | nil, r => r
  | node l a m, r => node l a (m.join r)

/-- The tree without the element that `lowerBound` gives. -/
def eraseLower (p : α → Bool) : SearchTree α → SearchTree α
  | nil => nil
  | node l a r =>
    if p a then if (l.lowerBound p none).isSome then node (l.eraseLower p) a r else l.join r
    else node l a (r.eraseLower p)

/-- Once an element has `p`, all behind it have. -/
def Upward (p : α → Bool) (l : List α) : Prop :=
  l.Pairwise (fun a b => p a = true → p b = true)

section Upward

variable {p : α → Bool} {l r : List α} {a : α}

lemma upward_node (h : Upward p (l ++ a :: r)) :
    Upward p l ∧ Upward p r ∧ (∀ b ∈ l, p b = true → p a = true) ∧
      (p a = true → ∀ b ∈ r, p b = true) := by
  obtain ⟨h1, h2, h3⟩ := List.pairwise_append.mp h
  obtain ⟨h4, h5⟩ := List.pairwise_cons.mp h2
  exact ⟨h1, h5, fun b hb => h3 b hb a List.mem_cons_self, fun ha b hb => h4 b hb ha⟩

/-- In front of an element without `p` nothing has it. -/
lemma find?_of_neg (h : Upward p (l ++ a :: r)) (ha : ¬p a = true) :
    (l ++ a :: r).find? p = r.find? p := by
  have hl : l.find? p = none :=
    List.find?_eq_none.mpr (fun b hb hp => ha ((upward_node h).2.2.1 b hb hp))
  rw [List.find?_append, hl, Option.none_or, List.find?_cons_of_neg ha]

end Upward

variable {p after before : α → Bool} {new : α}

/-- The descent finds the first element with `p`. -/
theorem lowerBound_eq {t : SearchTree α} (h : Upward p t.toList) (y : Option α) :
    t.lowerBound p y = (t.toList.find? p).or y := by
  induction t generalizing y with
  | nil => rfl
  | node l a r ihl ihr =>
    obtain ⟨hl, hr, _⟩ := upward_node h
    rw [lowerBound, toList]
    by_cases ha : p a = true
    · rw [if_pos ha, ihl hl, List.find?_append, List.find?_cons_of_pos ha]
      cases l.toList.find? p with
      | none => rfl
      | some b => rfl
    · rw [if_neg ha, ihr hr, find?_of_neg h ha]

/-- The new element goes in at its place in the order, if the one before it allows it. -/
theorem insertAt_eq {t : SearchTree α} (h : Upward after t.toList) (y : Option α) :
    (t.insertAt after before new y).map toList =
      if ((t.toList.takeWhile (fun a => !after a)).getLast?.or y).all before then
        some (t.toList.takeWhile (fun a => !after a) ++
          new :: t.toList.dropWhile (fun a => !after a))
      else none := by
  induction t generalizing y with
  | nil =>
    change (if y.all before = true then some (node nil new nil) else none).map toList =
      if y.all before = true then some [new] else none
    by_cases hy : y.all before = true
    · rw [if_pos hy, if_pos hy]
      rfl
    · rw [if_neg hy, if_neg hy]
      rfl
  | node l a r ihl ihr =>
    obtain ⟨hl, hr, hla, _⟩ := upward_node h
    rw [insertAt, toList]
    by_cases ha : after a = true
    · have hcut : ∀ m : List α, (m ++ a :: r.toList).takeWhile (fun b => !after b) =
          m.takeWhile (fun b => !after b) ∧
          (m ++ a :: r.toList).dropWhile (fun b => !after b) =
            m.dropWhile (fun b => !after b) ++ a :: r.toList := by
        intro m
        induction m with
        | nil => simp [ha]
        | cons b m ih =>
          by_cases hb : after b = true
          · simp [hb]
          · simpa [hb] using ih
      obtain ⟨htake, hdrop⟩ := hcut l.toList
      have hmap : ∀ o : Option (SearchTree α), (o.map (fun l => node l a r)).map toList =
          (o.map toList).map (fun m => m ++ a :: r.toList) := by
        intro o
        cases o with
        | none => rfl
        | some l => rfl
      rw [if_pos ha, hmap, ihl hl, htake, hdrop]
      split_ifs with hc
      · simp only [Option.map_some, List.append_assoc, List.cons_append]
      · rfl
    · have hfront : ∀ b ∈ l.toList ++ [a], (!after b) = true := by
        intro b hb
        rw [Bool.not_eq_true']
        rw [Bool.not_eq_true] at ha
        rcases List.mem_append.mp hb with hb | hb
        · by_contra hb'
          rw [hla b hb (Bool.not_eq_false _ ▸ hb')] at ha
          cases ha
        · rwa [List.mem_singleton.mp hb]
      have hsplit : l.toList ++ a :: r.toList = (l.toList ++ [a]) ++ r.toList := by
        rw [List.append_assoc, List.singleton_append]
      have hmap : ∀ o : Option (SearchTree α), (o.map (fun r => node l a r)).map toList =
          (o.map toList).map (fun m => (l.toList ++ [a]) ++ m) := by
        intro o
        cases o with
        | none => rfl
        | some r =>
          rw [Option.map_some, Option.map_some, Option.map_some, Option.map_some, toList,
            List.append_assoc, List.singleton_append]
      have hlast : ((l.toList ++ [a]) ++ r.toList.takeWhile (fun b => !after b)).getLast?.or y =
          (r.toList.takeWhile (fun b => !after b)).getLast?.or (some a) := by
        rw [List.getLast?_append, List.getLast?_concat]
        cases (r.toList.takeWhile (fun b => !after b)).getLast? with
        | none => rfl
        | some b => rfl
      rw [if_neg ha, hmap, ihr hr, hsplit, List.takeWhile_append_of_pos hfront,
        List.dropWhile_append_of_pos hfront, hlast]
      split_ifs with hc
      · simp only [Option.map_some, List.append_assoc]
      · rfl

lemma toList_join (l r : SearchTree α) : (l.join r).toList = l.toList ++ r.toList := by
  induction l with
  | nil => rfl
  | node l a m _ ihm => rw [join, toList, toList, ihm, List.append_assoc, List.cons_append]

theorem eraseLower_eq {t : SearchTree α} (h : Upward p t.toList) :
    (t.eraseLower p).toList = t.toList.eraseP p := by
  induction t with
  | nil => rfl
  | node l a r ihl ihr =>
    obtain ⟨hl, hr, hla, _⟩ := upward_node h
    rw [eraseLower, toList]
    by_cases ha : p a = true
    · rw [if_pos ha, lowerBound_eq hl, Option.or_none]
      by_cases hsome : (l.toList.find? p).isSome = true
      · obtain ⟨b, hb, hpb⟩ := List.find?_isSome.mp hsome
        rw [if_pos hsome, toList, ihl hl, List.eraseP_append_left hpb _ hb]
      · have hno : ∀ b ∈ l.toList, ¬p b = true := by
          intro b hb hpb
          exact hsome (List.find?_isSome.mpr ⟨b, hb, hpb⟩)
        rw [if_neg hsome, toList_join, List.eraseP_append_right _ hno,
          List.eraseP_cons_of_pos ha]
    · have hno : ∀ b ∈ l.toList, ¬p b = true := fun b hb hpb => ha (hla b hb hpb)
      rw [if_neg ha, toList, ihr hr, List.eraseP_append_right _ hno, List.eraseP_cons_of_neg ha]

end SearchTree

end Ummu.Lib

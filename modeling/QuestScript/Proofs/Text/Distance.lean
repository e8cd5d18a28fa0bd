import Mathlib.Order.Bounds.Basic
import Mathlib.Order.MinMax
import QuestScript.Text.Distance

/-!
# The edit distance

`editDistance` computes a table row by row. Here it is compared with what the table is for: the least
number of characters that have to be inserted, deleted or replaced (`Edits`). Between the two stands the
recursion on the first characters of both texts (`distance`). No edit changes its value by more than one,
and it counts the edits of a way from one text to the other (`isLeast_distance`).

The table is about the characters at the ends of prefixes, the recursion about those at the front. So the
rows hold distances of texts that are read backwards (`row`), and in the end both texts are turned round,
which changes no distance.

`TwoRows` is the table in two arrays that are overwritten in turn. What is left in an array from two rows
before is written over before it is read.
-/

namespace QuestScript.Text

variable {as bs cs : List Char} {a b c : Char} {n : Nat}

/-! ## Edits -/

/-- A character is inserted, deleted or replaced, wherever it stands. -/
inductive Edit : List Char → List Char → Prop
  | insert (as bs : List Char) (c : Char) : Edit (as ++ bs) (as ++ c :: bs)
  | delete (as bs : List Char) (c : Char) : Edit (as ++ c :: bs) (as ++ bs)
  | replace (as bs : List Char) (c d : Char) : Edit (as ++ c :: bs) (as ++ d :: bs)

/-- One text becomes another by a number of edits. -/
inductive Edits : Nat → List Char → List Char → Prop
  | refl (as : List Char) : Edits 0 as as
  | step {n : Nat} {as bs cs : List Char} (first : Edit as bs) (rest : Edits n bs cs) :
      Edits (n + 1) as cs

/-- An edit behind one more character is an edit. -/
theorem Edit.cons (c : Char) (h : Edit as bs) : Edit (c :: as) (c :: bs) := by
  cases h with
  | insert as bs d => exact .insert (c :: as) bs d
  | delete as bs d => exact .delete (c :: as) bs d
  | replace as bs d e => exact .replace (c :: as) bs d e

theorem Edits.cons (c : Char) (h : Edits n as bs) : Edits n (c :: as) (c :: bs) := by
  induction h with
  | refl as => exact .refl _
  | step first _ ih => exact .step (first.cons c) ih

/-- An edit can be made from the other end. -/
theorem Edit.reverse (h : Edit as bs) : Edit as.reverse bs.reverse := by
  cases h with
  | insert as bs c => simpa using Edit.insert bs.reverse as.reverse c
  | delete as bs c => simpa using Edit.delete bs.reverse as.reverse c
  | replace as bs c d => simpa using Edit.replace bs.reverse as.reverse c d

theorem Edits.reverse (h : Edits n as bs) : Edits n as.reverse bs.reverse := by
  induction h with
  | refl as => exact .refl _
  | step first _ ih => exact .step first.reverse ih

/-- Both texts can be read backwards. -/
theorem edits_reverse_iff : Edits n as.reverse bs.reverse ↔ Edits n as bs := by
  refine ⟨fun h => ?_, Edits.reverse⟩
  simpa using h.reverse

/-! ## Recursion on the first characters -/

/-- The edit distance by recursion: the first character of one text is dropped, or that of the other, or
both are, which costs nothing when they are the same. -/
def distance : List Char → List Char → Nat
  | [], bs => bs.length
  | as, [] => as.length
  | a :: as, b :: bs =>
    min (min (distance as (b :: bs) + 1) (distance (a :: as) bs + 1))
      (distance as bs + if a = b then 0 else 1)
termination_by as bs => as.length + bs.length

@[simp] theorem distance_nil_left (bs : List Char) : distance [] bs = bs.length := by
  rw [distance]

@[simp] theorem distance_nil_right (as : List Char) : distance as [] = as.length := by
  cases as with
  | nil => rw [distance]
  | cons a as =>
    rw [distance]
    exact nofun

theorem distance_cons_cons (a b : Char) (as bs : List Char) :
    distance (a :: as) (b :: bs) =
      min (min (distance as (b :: bs) + 1) (distance (a :: as) bs + 1))
        (distance as bs + if a = b then 0 else 1) := by
  rw [distance]

/-- A text is no edit away from itself. -/
theorem distance_self (as : List Char) : distance as as = 0 := by
  induction as with
  | nil => exact distance_nil_left []
  | cons a as ih =>
    rw [distance_cons_cons, ih, if_pos rfl]
    exact Nat.min_zero _

/-! ### One edit -/

/-- A character can be deleted. -/
theorem distance_cons_left_le (a : Char) (as bs : List Char) :
    distance (a :: as) bs ≤ distance as bs + 1 := by
  cases bs with
  | nil => simp
  | cons b bs =>
    rw [distance_cons_cons]
    omega

/-- A character can be inserted. -/
theorem distance_cons_right_le (b : Char) (as bs : List Char) :
    distance as (b :: bs) ≤ distance as bs + 1 := by
  cases as with
  | nil => simp
  | cons a as =>
    rw [distance_cons_cons]
    omega

/-- A character that is gone may have to be put back. -/
theorem le_distance_cons_left (a : Char) (as bs : List Char) :
    distance as bs ≤ distance (a :: as) bs + 1 := by
  induction bs with
  | nil =>
    simp only [distance_nil_right, List.length_cons]
    omega
  | cons b bs ih =>
    have := distance_cons_right_le b as bs
    rw [distance_cons_cons]
    omega

/-- By induction on the other text: a replaced first character costs at most one. -/
theorem distance_replace_le (c d : Char) (as bs : List Char) :
    distance (c :: as) bs ≤ distance (d :: as) bs + 1 := by
  induction bs with
  | nil => simp
  | cons b bs ih =>
    have := distance_cons_left_le c as (b :: bs)
    have hcost : (if c = b then 0 else 1) ≤ 1 := by split <;> omega
    rw [distance_cons_cons d]
    rw [distance_cons_cons c] at this ⊢
    omega

/-- A character in front of both texts makes the step between them no longer. -/
theorem distance_cons_le {as' : List Char} (h : ∀ bs, distance as bs ≤ distance as' bs + 1) (c : Char)
    (bs : List Char) : distance (c :: as) bs ≤ distance (c :: as') bs + 1 := by
  induction bs with
  | nil => simpa using h []
  | cons b bs ih =>
    have hwhole := h (b :: bs)
    have hrest := h bs
    rw [distance_cons_cons, distance_cons_cons]
    omega

/-- An edit comes closer to another text by at most one. -/
theorem Edit.distance_le {as' : List Char} (h : Edit as as') (bs : List Char) :
    distance as bs ≤ distance as' bs + 1 := by
  cases h with
  | insert front back c =>
    induction front generalizing bs with
    | nil => exact le_distance_cons_left c back bs
    | cons d front ih => exact distance_cons_le ih d bs
  | delete front back c =>
    induction front generalizing bs with
    | nil => exact distance_cons_left_le c back bs
    | cons d front ih => exact distance_cons_le ih d bs
  | replace front back c e =>
    induction front generalizing bs with
    | nil => exact distance_replace_le c e back bs
    | cons d front ih => exact distance_cons_le ih d bs

/-! ### The least number of edits -/

/-- By induction on the edits, each of which brings the texts closer by at most one. -/
theorem Edits.distance_le (h : Edits n as bs) : distance as bs ≤ n := by
  induction h with
  | refl as => exact Nat.le_of_eq (distance_self as)
  | step first _ ih => exact (first.distance_le _).trans (Nat.succ_le_succ ih)

theorem edits_nil_left (bs : List Char) : Edits bs.length [] bs := by
  induction bs with
  | nil => exact .refl []
  | cons b bs ih => exact .step (.insert [] [] b) (ih.cons b)

theorem edits_nil_right (as : List Char) : Edits as.length as [] := by
  induction as with
  | nil => exact .refl []
  | cons a as ih => exact .step (.delete [] as a) ih

/-- The recursion counts the edits of a way from one text to the other. -/
theorem edits_distance (as bs : List Char) : Edits (distance as bs) as bs := by
  fun_induction distance as bs with
  | case1 bs => exact edits_nil_left bs
  | case2 as _ => exact edits_nil_right as
  | case3 a as b bs ihdelete ihinsert ihboth =>
    have hdelete : Edits (distance as (b :: bs) + 1) (a :: as) (b :: bs) :=
      .step (.delete [] as a) ihdelete
    have hinsert : Edits (distance (a :: as) bs + 1) (a :: as) (b :: bs) :=
      .step (.insert [] (a :: as) b) (ihinsert.cons b)
    have hboth : Edits (distance as bs + if a = b then 0 else 1) (a :: as) (b :: bs) := by
      split
      · next heq =>
        rw [heq]
        exact ihboth.cons b
      · exact .step (.replace [] as a b) (ihboth.cons b)
    rcases min_choice (min (distance as (b :: bs) + 1) (distance (a :: as) bs + 1))
      (distance as bs + if a = b then 0 else 1) with h | h
    · rw [h]
      rcases min_choice (distance as (b :: bs) + 1) (distance (a :: as) bs + 1) with h' | h'
      · rwa [h']
      · rwa [h']
    · rwa [h]

/-- **The recursion gives the least number of edits.** -/
theorem isLeast_distance (as bs : List Char) : IsLeast {n | Edits n as bs} (distance as bs) :=
  ⟨edits_distance as bs, fun _ h => h.distance_le⟩

/-- The least number of edits does not depend on the end that is looked at first. -/
theorem distance_reverse (as bs : List Char) : distance as.reverse bs.reverse = distance as bs := by
  refine (isLeast_distance as.reverse bs.reverse).unique ?_
  have hset : {n | Edits n as.reverse bs.reverse} = {n | Edits n as bs} :=
    Set.ext fun n => edits_reverse_iff
  rw [hset]
  exact isLeast_distance as bs

/-! ## Rows of the table -/

/-- The distances of `as` to `seen`, and to what `seen` becomes when the characters of a text come in
front of it one by one. -/
def row (as seen : List Char) : List Char → List Nat
  | [] => [distance as seen]
  | b :: bs => distance as seen :: row as (b :: seen) bs

theorem row_eq_cons (as seen bs : List Char) : ∃ cells, row as seen bs = distance as seen :: cells := by
  cases bs with
  | nil => exact ⟨[], rfl⟩
  | cons b bs => exact ⟨row as (b :: seen) bs, rfl⟩

@[simp] theorem length_row (as seen bs : List Char) : (row as seen bs).length = bs.length + 1 := by
  induction bs generalizing seen with
  | nil => rfl
  | cons b bs ih => rw [row, List.length_cons, ih, List.length_cons]

/-- The cells of a row come from the row before it. -/
theorem editCells_row (a : Char) (as seen bs : List Char) :
    distance (a :: as) seen :: editCells a bs (distance (a :: as) seen) (row as seen bs)
      = row (a :: as) seen bs := by
  induction bs generalizing seen with
  | nil => rfl
  | cons b bs ih =>
    obtain ⟨cells, hcells⟩ := row_eq_cons as (b :: seen) bs
    have hcell : min (min (distance as (b :: seen) + 1) (distance (a :: as) seen + 1))
        (distance as seen + if a == b then 0 else 1) = distance (a :: as) (b :: seen) := by
      simp only [distance_cons_cons, beq_iff_eq]
    have hrest := ih (b :: seen)
    rw [hcells] at hrest
    rw [row, row, hcells, editCells, hcell, hrest]

/-- A row of the table becomes the next one when a character is read. -/
theorem editRow_row (a : Char) (as bs : List Char) : editRow bs (row as [] bs) a = row (a :: as) [] bs := by
  obtain ⟨cells, hcells⟩ := row_eq_cons as [] bs
  have hfirst : (row as [] bs).headD 0 + 1 = distance (a :: as) [] := by
    rw [hcells, List.headD_cons, distance_nil_right, distance_nil_right, List.length_cons]
  unfold editRow
  rw [hfirst]
  exact editCells_row a as [] bs

theorem range'_eq_row (seen bs : List Char) : List.range' seen.length (bs.length + 1) = row [] seen bs := by
  induction bs generalizing seen with
  | nil => simp [row]
  | cons b bs ih =>
    rw [row, ← ih (b :: seen), distance_nil_left, List.length_cons, List.range'_succ, List.length_cons]

/-- The first row holds the distances from the empty text. -/
theorem range_eq_row (bs : List Char) : List.range (bs.length + 1) = row [] [] bs := by
  rw [List.range_eq_range']
  exact range'_eq_row [] bs

/-- By induction on the characters of the first text, one row for each. -/
theorem foldl_editRow (as seen bs : List Char) :
    as.foldl (editRow bs) (row seen [] bs) = row (as.reverse ++ seen) [] bs := by
  induction as generalizing seen with
  | nil => rfl
  | cons a as ih =>
    rw [List.foldl_cons, editRow_row, ih, List.reverse_cons, List.append_assoc, List.singleton_append]

/-- The last cell of a row is the distance of the whole second text. -/
theorem getLast?_row (as seen bs : List Char) :
    (row as seen bs).getLast? = some (distance as (bs.reverse ++ seen)) := by
  induction bs generalizing seen with
  | nil => rfl
  | cons b bs ih =>
    obtain ⟨cells, hcells⟩ := row_eq_cons as (b :: seen) bs
    rw [row, hcells, List.getLast?_cons_cons, ← hcells, ih, List.reverse_cons, List.append_assoc,
      List.singleton_append]

/-- The table holds what the recursion says. -/
theorem editDistance_eq (as bs : List Char) : editDistance as bs = distance as bs := by
  unfold editDistance
  rw [range_eq_row, foldl_editRow, List.getLastD_eq_getLast?, getLast?_row, List.append_nil,
    List.append_nil, Option.getD_some, distance_reverse]

/-! ## Two rows that are overwritten in turn -/

namespace TwoRows

/-- Write a cell, if there is one. -/
def write? (cells : Array Nat) (j n : Nat) : Option (Array Nat) :=
  if h : j < cells.size then some (cells.set j n) else none

/-- Write the cells of `current` behind cell `j`, one for each character of the second text. -/
def fill? (a : Char) (previous : Array Nat) : Nat → List Char → Array Nat → Option (Array Nat)
  | _, [], current => some current
  | j, b :: bs, current => do
    let cost := if a = b then 0 else 1
    let cell := min (min ((← previous[j + 1]?) + 1) ((← current[j]?) + 1)) ((← previous[j]?) + cost)
    fill? a previous (j + 1) bs (← write? current (j + 1) cell)

/-- One row for each character of the first text. The two arrays change roles after each row; `i` rows
have been written before. -/
def rows? (bs : List Char) : Nat → List Char → Array Nat → Array Nat → Option (Array Nat)
  | _, [], previous, _ => some previous
  | i, a :: as, previous, current => do
    let current ← write? current 0 (i + 1)
    let current ← fill? a previous 0 bs current
    rows? bs (i + 1) as current previous

/-- The edit distance, with every access to the two rows checked. -/
def distance? (as bs : List Char) : Option Nat :=
  if as.isEmpty then some bs.length
  else if bs.isEmpty then some as.length
  else do
    let last ← rows? bs 0 as (Array.range (bs.length + 1)) (Array.replicate (bs.length + 1) 0)
    last[bs.length]?

theorem write?_toArray (front rest : List Nat) (old n : Nat) :
    write? (front ++ old :: rest).toArray front.length n = some (front ++ n :: rest).toArray := by
  unfold write?
  rw [dif_pos (by simp)]
  simp

/-- The cells are those of the new row, whatever has been in the array before: `stale`. -/
theorem fill?_eq (a : Char) (as seen bs : List Char) (front above stale : List Nat)
    (hfront : front.length = seen.length) (habove : above.length = seen.length)
    (hstale : stale.length = bs.length) :
    fill? a (above ++ row as seen bs).toArray seen.length bs
        (front ++ distance (a :: as) seen :: stale).toArray
      = some (front ++ row (a :: as) seen bs).toArray := by
  induction bs generalizing seen front above stale with
  | nil =>
    rw [List.eq_nil_of_length_eq_zero hstale]
    rfl
  | cons b bs ih =>
    obtain ⟨old, stale, rfl⟩ := List.exists_cons_of_length_eq_add_one hstale
    obtain ⟨cells, hcells⟩ := row_eq_cons as (b :: seen) bs
    have hup : (above ++ row as seen (b :: bs)).toArray[seen.length + 1]?
        = some (distance as (b :: seen)) := by
      rw [List.getElem?_toArray, List.getElem?_append_right (by omega), row, hcells, habove,
        Nat.add_sub_cancel_left]
      rfl
    have hdiagonal : (above ++ row as seen (b :: bs)).toArray[seen.length]? = some (distance as seen) := by
      rw [List.getElem?_toArray, List.getElem?_append_right (by omega), habove, Nat.sub_self]
      rfl
    have hleft : (front ++ distance (a :: as) seen :: old :: stale).toArray[seen.length]?
        = some (distance (a :: as) seen) := by
      rw [List.getElem?_toArray, List.getElem?_append_right (by omega), hfront, Nat.sub_self]
      rfl
    have hwrite (n : Nat) : write? (front ++ distance (a :: as) seen :: old :: stale).toArray
        (seen.length + 1) n = some ((front ++ [distance (a :: as) seen]) ++ n :: stale).toArray := by
      have h := write?_toArray (front ++ [distance (a :: as) seen]) stale old n
      rw [List.length_append, List.length_singleton, hfront] at h
      rw [← h, List.append_assoc, List.singleton_append]
    have hrest := ih (b :: seen) (front ++ [distance (a :: as) seen]) (above ++ [distance as seen]) stale
      (by simp [hfront]) (by simp [habove]) (Nat.succ.inj hstale)
    rw [List.append_assoc above, List.singleton_append, List.append_assoc front _ (row _ _ _),
      List.singleton_append, List.length_cons] at hrest
    rw [fill?]
    simp only [hup, hdiagonal, hleft, Option.bind_eq_bind, Option.bind_some, ← distance_cons_cons, hwrite]
    exact hrest

/-- By induction on the first text. The arrays change their parts, so the stale one is from two rows
before. -/
theorem rows?_eq (as seen bs : List Char) (stale : List Nat) (hstale : stale.length = bs.length + 1) :
    rows? bs seen.length as (row seen [] bs).toArray stale.toArray
      = some (row (as.reverse ++ seen) [] bs).toArray := by
  induction as generalizing seen stale with
  | nil => rfl
  | cons a as ih =>
    obtain ⟨old, stale, rfl⟩ := List.exists_cons_of_length_eq_add_one hstale
    have hwrite : write? (old :: stale).toArray 0 (seen.length + 1)
        = some (distance (a :: seen) [] :: stale).toArray := by
      rw [distance_nil_right]
      exact write?_toArray [] stale old _
    have hfill : fill? a (row seen [] bs).toArray 0 bs (distance (a :: seen) [] :: stale).toArray
        = some (row (a :: seen) [] bs).toArray :=
      fill?_eq a seen [] bs [] [] stale rfl rfl (Nat.succ.inj hstale)
    have hrest := ih (a :: seen) (row seen [] bs) (length_row _ _ _)
    rw [List.reverse_cons, List.append_assoc, List.singleton_append, ← hrest]
    rw [rows?]
    simp only [hwrite, hfill, Option.bind_eq_bind, Option.bind_some, List.length_cons]

/-- Every access finds its cell, and the last one finds the distance. -/
theorem distance?_eq (as bs : List Char) : distance? as bs = some (distance as bs) := by
  unfold distance?
  cases as with
  | nil => simp
  | cons a as =>
    cases bs with
    | nil => simp
    | cons b bs =>
      have hstart : Array.range ((b :: bs).length + 1) = (row [] [] (b :: bs)).toArray := by
        rw [← range_eq_row, List.toArray_range]
      have hrows := rows?_eq (a :: as) [] (b :: bs) (List.replicate ((b :: bs).length + 1) 0) (by simp)
      rw [List.length_nil, List.append_nil, List.toArray_replicate, ← hstart] at hrows
      have hlast := getLast?_row (a :: as).reverse [] (b :: bs)
      rw [List.getLast?_eq_getElem?, length_row, List.append_nil, distance_reverse] at hlast
      simp only [List.isEmpty_cons, Bool.false_eq_true, if_false, hrows, Option.bind_eq_bind,
        Option.bind_some, List.getElem?_toArray]
      exact hlast

end TwoRows

/-! ## Suggestions -/

section Suggestions

variable {α : Type} {key : α → Nat} {l : List α} {x : α}

/-- Only among no names there is no first one. -/
theorem firstLeast_eq_none_iff : firstLeast key l = none ↔ l = [] := by
  cases l with
  | nil => simp [firstLeast]
  | cons x l =>
    rw [firstLeast]
    split
    · simp
    · split <;> simp

/-- What is found is smaller than all before it and not larger than any after it. -/
theorem exists_of_firstLeast (h : firstLeast key l = some x) :
    ∃ before after, l = before ++ x :: after ∧ (∀ y ∈ before, key x < key y) ∧
      ∀ y ∈ after, key x ≤ key y := by
  induction l generalizing x with
  | nil => cases h
  | cons y l ih =>
    rw [firstLeast] at h
    split at h
    · next hnone =>
      cases h
      rw [firstLeast_eq_none_iff.mp hnone]
      exact ⟨[], [], rfl, nofun, nofun⟩
    · next z hz =>
      obtain ⟨before, after, rfl, hbefore, hafter⟩ := ih hz
      split at h
      · next hlt =>
        cases h
        exact ⟨y :: before, after, rfl, List.forall_mem_cons.mpr ⟨hlt, hbefore⟩, hafter⟩
      · next hle =>
        cases h
        refine ⟨[], _, rfl, nofun, ?_⟩
        -- the first element is before the least one of the others, so it is before all of them
        intro w hw
        refine (Nat.not_lt.mp hle).trans ?_
        rcases List.mem_append.mp hw with hw | hw
        · exact (hbefore w hw).le
        · rcases List.mem_cons.mp hw with rfl | hw
          · exact le_rfl
          · exact hafter w hw

/-- The element found has the least key, and it is the first one that has. -/
theorem firstLeast_eq_some_iff : firstLeast key l = some x ↔
    ∃ before after, l = before ++ x :: after ∧ (∀ y ∈ before, key x < key y) ∧
      ∀ y ∈ after, key x ≤ key y := by
  refine ⟨exists_of_firstLeast, ?_⟩
  rintro ⟨before, after, rfl, hbefore, hafter⟩
  induction before with
  | nil =>
    rw [List.nil_append, firstLeast]
    split
    · rfl
    · next z hz =>
      obtain ⟨front, back, rfl, -⟩ := exists_of_firstLeast hz
      rw [if_neg (Nat.not_lt.mpr (hafter z (by simp)))]
  | cons y before ih =>
    obtain ⟨hy, hbefore⟩ := List.forall_mem_cons.mp hbefore
    rw [List.cons_append, firstLeast, ih hbefore]
    exact if_pos hy

end Suggestions

/-- How far a known name is from the name that was looked for, by the rules of suggestions. -/
def nameDistance (name known : String) : Nat :=
  editDistance (upper (trimWhite name.toList)) (upper known.toList)

section Names

variable {name s : String} {known : List String} {threshold : Nat}

/-- A name is found if it is close enough, closer than all before it, and as close as those after it. -/
theorem similarName?_eq_some_iff : similarName? name known threshold = some s ↔
    ∃ before after, known = before ++ s :: after ∧ nameDistance name s ≤ threshold ∧
      (∀ t ∈ before, nameDistance name s < nameDistance name t) ∧
      ∀ t ∈ after, nameDistance name s ≤ nameDistance name t := by
  show firstLeast (nameDistance name) (known.filter fun s => nameDistance name s ≤ threshold) = some s
    ↔ _
  rw [firstLeast_eq_some_iff]
  constructor
  · rintro ⟨front, back, hfilter, hfront, hback⟩
    obtain ⟨before, rest, rfl, rfl, hrest⟩ := List.filter_eq_append_iff.mp hfilter
    obtain ⟨skipped, after, rfl, hskipped, hs, rfl⟩ := List.filter_eq_cons_iff.mp hrest
    have hle : nameDistance name s ≤ threshold := of_decide_eq_true hs
    -- what is beyond the threshold is farther away than what is not
    have hfar {t : String} (ht : ¬ nameDistance name t ≤ threshold) :
        nameDistance name s < nameDistance name t := hle.trans_lt (Nat.lt_of_not_le ht)
    refine ⟨before ++ skipped, after, (List.append_assoc _ _ _).symm, hle, ?_, ?_⟩
    · intro t ht
      by_cases hnear : nameDistance name t ≤ threshold
      · rcases List.mem_append.mp ht with ht | ht
        · exact hfront t (List.mem_filter.mpr ⟨ht, decide_eq_true hnear⟩)
        · exact absurd (decide_eq_true hnear) (hskipped t ht)
      · exact hfar hnear
    · intro t ht
      by_cases hnear : nameDistance name t ≤ threshold
      · exact hback t (List.mem_filter.mpr ⟨ht, decide_eq_true hnear⟩)
      · exact (hfar hnear).le
  · rintro ⟨before, after, rfl, hle, hbefore, hafter⟩
    have hs : (s :: after).filter (fun t => nameDistance name t ≤ threshold)
        = s :: after.filter fun t => nameDistance name t ≤ threshold :=
      List.filter_cons_of_pos (decide_eq_true hle)
    refine ⟨_, _, by rw [List.filter_append, hs], ?_, ?_⟩
    · exact fun t ht => hbefore t (List.mem_filter.mp ht).1
    · exact fun t ht => hafter t (List.mem_filter.mp ht).1

/-- None is found only if all of them are too far away. -/
theorem similarName?_eq_none_iff : similarName? name known threshold = none ↔
    ∀ s ∈ known, threshold < nameDistance name s := by
  show firstLeast (nameDistance name) (known.filter fun s => nameDistance name s ≤ threshold) = none ↔ _
  rw [firstLeast_eq_none_iff, List.filter_eq_nil_iff]
  simp only [decide_eq_true_eq, Nat.not_le]

end Names

/-- The edit distance is the least number of characters to insert, delete or replace; it is what the
recursion on the first characters gives, and two rows that are overwritten in turn are enough to compute
it. The suggestion for a name is the first of the known names that are closest to it, if they are within
the threshold. -/
theorem suggestion_closest :
    (∀ as bs : List Char, IsLeast {n | Edits n as bs} (editDistance as bs) ∧
      editDistance as bs = distance as bs ∧ TwoRows.distance? as bs = some (editDistance as bs)) ∧
    ∀ (name : String) (known : List String) (threshold : Nat),
      (∀ s, similarName? name known threshold = some s ↔
        ∃ before after, known = before ++ s :: after ∧ nameDistance name s ≤ threshold ∧
          (∀ t ∈ before, nameDistance name s < nameDistance name t) ∧
          ∀ t ∈ after, nameDistance name s ≤ nameDistance name t) ∧
      (similarName? name known threshold = none ↔ ∀ s ∈ known, threshold < nameDistance name s) := by
  refine ⟨fun as bs => ?_, fun name known threshold => ?_⟩
  · rw [TwoRows.distance?_eq, editDistance_eq]
    exact ⟨isLeast_distance as bs, rfl, rfl⟩
  · exact ⟨fun s => similarName?_eq_some_iff, similarName?_eq_none_iff⟩

end QuestScript.Text

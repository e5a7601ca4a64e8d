import EditGate.Proofs.Text.Trim
import EditGate.Proofs.Text.Words
import EditGate.Render
import Mathlib.Data.List.DropRight

/-!
# Texts on one line

A row of a listing shows the words of a text with single spaces between them, cut at the width of
the row. `fill` writes word by word and keeps count of the characters; what it writes after some
words is the cut of all of them (`fill_eq`). The text that comes out is of that kind again, so
showing it a second time does not change it.
-/

namespace EditGate.Render

open Text

variable {width : Nat} {s word : List Char} {done ws : List (List Char)}

/-- A text that is cut at a width, with an ellipsis in the place of what is cut off. -/
def cutTo (width : Nat) (s : List Char) : List Char :=
  if s.length ≤ width then s else dropEndWhile (· == ' ') (s.take width) ++ ['…']

/-! ## Cutting -/

theorem length_dropEndWhile_le (p : Char → Bool) (s : List Char) :
    (dropEndWhile p s).length ≤ s.length := by
  simpa [dropEndWhile] using (List.dropWhile_sublist p (l := s.reverse)).length_le

theorem dropEndWhile_idem (p : Char → Bool) (s : List Char) :
    dropEndWhile p (dropEndWhile p s) = dropEndWhile p s := by
  simp [dropEndWhile, List.dropWhile_idempotent p]

theorem length_cutTo_le (width : Nat) (s : List Char) : (cutTo width s).length ≤ width + 1 := by
  rw [cutTo]
  split
  · omega
  · have hdrop := length_dropEndWhile_le (· == ' ') (s.take width)
    have htake := List.length_take_le width s
    rw [List.length_append, List.length_singleton]
    omega

/-- A text that was cut has room for the ellipsis, or loses nothing but that to a second cut. -/
theorem cutTo_cutTo (width : Nat) (s : List Char) :
    cutTo width (cutTo width s) = cutTo width s := by
  by_cases hs : s.length ≤ width
  · simp [cutTo, hs]
  · have hcut : cutTo width s = dropEndWhile (· == ' ') (s.take width) ++ ['…'] := if_neg hs
    have hle : (dropEndWhile (· == ' ') (s.take width)).length ≤ width :=
      Nat.le_trans (length_dropEndWhile_le ..) (List.length_take_le ..)
    rw [hcut, cutTo]
    split
    · rfl
    · rename_i hlong
      rw [List.length_append, List.length_singleton] at hlong
      have hwhole : (dropEndWhile (· == ' ') (s.take width)).length = width := by omega
      rw [List.take_append_of_le_length (by omega), List.take_of_length_le hle,
        dropEndWhile_idem]

/-! ## Filling a line -/

/-- What separates the next word from the text so far. -/
def gap (used : Nat) : List Char := if used > 0 then [' '] else []

theorem fill_cons (width used : Nat) (word : List Char) (ws : List (List Char)) :
    fill width used (word :: ws) =
      if used + (gap used).length + word.length > width then
        (if width > used + (gap used).length then gap used else []) ++
          word.take (width - (used + (gap used).length)) ++ ['…']
      else
        gap used ++ word ++ fill width (used + (gap used).length + word.length) ws := by
  rw [fill]
  by_cases h : used > 0 <;> simp [gap, h]

theorem spaced_concat (hdone : ∀ word ∈ done, IsWord word) (word : List Char) :
    spaced (done ++ [word]) = spaced done ++ gap (spaced done).length ++ word := by
  by_cases hne : done = []
  · simp [hne, gap, spaced_singleton]
  · obtain ⟨front, z, hlast, -⟩ := exists_last_spaced hne hdone
    have hgap : gap (spaced done).length = [' '] := by
      rw [hlast]
      simp [gap]
    rw [spaced_append hne (List.cons_ne_nil _ _), spaced_singleton, hgap]
    simp

theorem forall_isWord_concat (hdone : ∀ word ∈ done, IsWord word) (hword : IsWord word) :
    ∀ w ∈ done ++ [word], IsWord w :=
  List.forall_mem_append.mpr ⟨hdone, List.forall_mem_cons.mpr ⟨hword, by simp⟩⟩

theorem dropEndWhile_spaced (hdone : ∀ word ∈ done, IsWord word) :
    dropEndWhile (· == ' ') (spaced done) = spaced done := by
  by_cases hne : done = []
  · simp [hne, dropEndWhile]
  · obtain ⟨front, z, hlast, hz⟩ := exists_last_spaced hne hdone
    have hspace : (z == ' ') = false := by
      rw [beq_eq_false_iff_ne]
      rintro rfl
      exact absurd hz (by decide)
    rw [hlast]
    exact dropEndWhile_concat_of_neg hspace

/-- A word that does not fit is cut off with the gap before it, or within it. -/
theorem dropEndWhile_take (hdone : ∀ word ∈ done, IsWord word) (hword : IsWord word)
    (hroom : (spaced done).length ≤ width)
    (hover : (spaced done).length + (gap (spaced done).length).length + word.length > width) :
    dropEndWhile (· == ' ') ((spaced (done ++ [word])).take width) =
      spaced done ++
        ((if width > (spaced done).length + (gap (spaced done).length).length
          then gap (spaced done).length else []) ++
        word.take (width - ((spaced done).length + (gap (spaced done).length).length))) := by
  rw [spaced_concat hdone]
  generalize hg : gap (spaced done).length = g at hover ⊢
  have hspaces : ∀ c ∈ g, (c == ' ') = true := by
    rw [← hg, gap]
    split <;> simp
  split
  · rename_i hlong
    -- the cut is within the word, whose characters are no spaces
    have hpart : IsWord (word.take (width - ((spaced done).length + g.length))) := by
      refine ⟨fun he => ?_, fun c hc => hword.2 c (List.mem_of_mem_take hc)⟩
      have := congrArg List.length he
      rw [List.length_take, List.length_nil] at this
      omega
    have htake : (spaced done ++ g ++ word).take width =
        spaced done ++ g ++ word.take (width - ((spaced done).length + g.length)) := by
      rw [List.take_append, List.take_of_length_le (by rw [List.length_append]; omega),
        List.length_append]
    have hconcat : spaced done ++ g ++ word.take (width - ((spaced done).length + g.length)) =
        spaced (done ++ [word.take (width - ((spaced done).length + g.length))]) := by
      rw [spaced_concat hdone, hg]
    rw [htake, hconcat, dropEndWhile_spaced (forall_isWord_concat hdone hpart), ← hconcat,
      List.append_assoc]
  · rename_i hshort
    have hzero : width - ((spaced done).length + g.length) = 0 := by omega
    rw [List.append_assoc, List.take_append, List.take_of_length_le hroom, hzero, List.take_zero,
      List.append_nil, List.append_nil, List.take_append_of_le_length (by omega),
      dropEndWhile_append_of_all fun c hc => hspaces c (List.mem_of_mem_take hc),
      dropEndWhile_spaced hdone]

/-- What is written after some words that fit is the cut of all the words. -/
theorem fill_eq (hdone : ∀ word ∈ done, IsWord word) (hws : ∀ word ∈ ws, IsWord word)
    (hroom : (spaced done).length ≤ width) :
    spaced done ++ fill width (spaced done).length ws = cutTo width (spaced (done ++ ws)) := by
  induction ws generalizing done with
  | nil => simp [fill, cutTo, hroom]
  | cons word ws ih =>
    obtain ⟨hword, hws⟩ := List.forall_mem_cons.mp hws
    have hconcat := spaced_concat hdone word
    rw [fill_cons]
    split
    · rename_i hover
      have hlong : width < (spaced (done ++ [word])).length := by
        rw [hconcat, List.length_append, List.length_append]
        omega
      -- the words after the one that does not fit make no difference
      obtain ⟨more, hmore⟩ : ∃ more, spaced (done ++ word :: ws) = spaced (done ++ [word]) ++ more := by
        by_cases hne : ws = []
        · exact ⟨[], by simp [hne]⟩
        · exact ⟨' ' :: spaced ws, by rw [List.append_cons, spaced_append (by simp) hne]⟩
      have hwhole : ¬ (spaced (done ++ [word]) ++ more).length ≤ width := by
        rw [List.length_append]
        omega
      rw [hmore, cutTo, if_neg hwhole, List.take_append_of_le_length (Nat.le_of_lt hlong),
        dropEndWhile_take hdone hword hroom hover]
      simp only [List.append_assoc]
    · rename_i hfits
      have hlength : (spaced (done ++ [word])).length =
          (spaced done).length + (gap (spaced done).length).length + word.length := by
        rw [hconcat, List.length_append, List.length_append]
      have hrest := ih (forall_isWord_concat hdone hword) hws (by omega)
      rw [hlength, hconcat] at hrest
      rw [List.append_cons, ← hrest]
      simp only [List.append_assoc]

/-! ## What is written -/

theorem isWord_concat_ellipsis (h : ∀ c ∈ s, isBlank c = false) : IsWord (s ++ ['…']) := by
  refine ⟨by simp, fun c hc => ?_⟩
  rcases List.mem_append.mp hc with hc | hc
  · exact h c hc
  · rw [List.mem_singleton.mp hc]
    decide

/-- An ellipsis behind some words belongs to the last of them, or is a word of its own. -/
theorem exists_spaced_ellipsis (hdone : ∀ word ∈ done, IsWord word) :
    ∃ ws', (∀ word ∈ ws', IsWord word) ∧ spaced done ++ ['…'] = spaced ws' := by
  rcases List.eq_nil_or_concat done with rfl | ⟨front, last, rfl⟩
  · refine ⟨[['…']], ?_, rfl⟩
    exact List.forall_mem_cons.mpr ⟨isWord_concat_ellipsis (s := []) (by simp), by simp⟩
  · rw [List.concat_eq_append] at hdone ⊢
    obtain ⟨hfront, hlast⟩ := List.forall_mem_append.mp hdone
    have hword := isWord_concat_ellipsis (hlast last List.mem_cons_self).2
    refine ⟨front ++ [last ++ ['…']], forall_isWord_concat hfront hword, ?_⟩
    rw [spaced_concat hfront, spaced_concat hfront, List.append_assoc]

/-- After some words, more words are written, the last of them perhaps with an ellipsis. -/
theorem exists_spaced_fill (hdone : ∀ word ∈ done, IsWord word)
    (hws : ∀ word ∈ ws, IsWord word) (width : Nat) :
    ∃ ws', (∀ word ∈ ws', IsWord word) ∧
      spaced done ++ fill width (spaced done).length ws = spaced ws' := by
  induction ws generalizing done with
  | nil => exact ⟨done, hdone, by simp [fill]⟩
  | cons word ws ih =>
    obtain ⟨hword, hws⟩ := List.forall_mem_cons.mp hws
    rw [fill_cons]
    split
    · split
      · have hpart := isWord_concat_ellipsis (s := word.take
          (width - ((spaced done).length + (gap (spaced done).length).length))) fun c hc =>
            hword.2 c (List.mem_of_mem_take hc)
        refine ⟨_, forall_isWord_concat hdone hpart, ?_⟩
        rw [spaced_concat hdone]
        simp only [List.append_assoc]
      · rename_i hshort
        rw [Nat.sub_eq_zero_of_le (Nat.le_of_not_lt hshort), List.take_zero, List.append_nil,
          List.nil_append]
        exact exists_spaced_ellipsis hdone
    · have hlength : (spaced (done ++ [word])).length =
          (spaced done).length + (gap (spaced done).length).length + word.length := by
        rw [spaced_concat hdone, List.length_append, List.length_append]
      obtain ⟨ws', hws', hrest⟩ := ih (forall_isWord_concat hdone hword) hws
      refine ⟨ws', hws', ?_⟩
      rw [← hrest, hlength, spaced_concat hdone]
      simp only [List.append_assoc]

theorem toList_oneLine (text : String) (width : Nat) :
    (oneLine text width).toList = cutTo width (singleSpaced text.toList) := by
  have hfill := @fill_eq width [] (words text.toList) (by simp)
    (fun _ hw => isWord_of_mem_words hw) (Nat.zero_le _)
  rw [spaced_nil, List.nil_append, List.length_nil, List.nil_append, ← singleSpaced_eq] at hfill
  rw [oneLine, String.toList_ofList, hfill]

theorem exists_spaced_oneLine (text : String) (width : Nat) :
    ∃ ws, (∀ word ∈ ws, IsWord word) ∧ (oneLine text width).toList = spaced ws := by
  obtain ⟨ws, hws, hfill⟩ := @exists_spaced_fill [] (words text.toList) (by simp)
    (fun _ hw => isWord_of_mem_words hw) width
  rw [spaced_nil, List.nil_append, List.length_nil] at hfill
  exact ⟨ws, hws, by rw [oneLine, String.toList_ofList, hfill]⟩

/-- A row shows the words of a text with single spaces between them, whole if they are at most as
long as the row is wide, and otherwise up to that width, without spaces at the end, with an
ellipsis. So it is no longer than the width and the ellipsis, it has no line break, since all its
blanks are spaces, and it is shown as it is by a row of the same width. -/
theorem oneLine_faithful (text : String) (width : Nat) :
    (oneLine text width).toList = cutTo width (singleSpaced text.toList) ∧
      (oneLine text width).length ≤ width + 1 ∧
      (∀ c ∈ (oneLine text width).toList, isBlank c = true → c = ' ') ∧
      oneLine (oneLine text width) width = oneLine text width := by
  have hcut := toList_oneLine text width
  obtain ⟨ws, hws, hspaced⟩ := exists_spaced_oneLine text width
  refine ⟨hcut, ?_, fun c hc hblank => ?_, ?_⟩
  · rw [← String.length_toList, hcut]
    exact length_cutTo_le ..
  · exact eq_space_of_mem_spaced hws (hspaced ▸ hc) hblank
  · refine String.toList_injective ?_
    rw [toList_oneLine, hspaced, singleSpaced_spaced hws, ← hspaced, hcut, cutTo_cutTo]

/-- The cut may fall within a word, or at the space before one. -/
example : oneLine "one\ntwo  three" 5 = "one t…" ∧ oneLine "one\ntwo  three" 4 = "one…" ∧
    oneLine "one\ntwo  three" 0 = "…" := by
  decide

end EditGate.Render

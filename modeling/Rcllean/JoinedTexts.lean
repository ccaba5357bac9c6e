import Mathlib.Data.List.Basic
import Mathlib.Data.String.Basic

/-!
# Texts joined with a separator

Splitting a text on a one-character separator, piece by piece, and joining
pieces that do not contain it: splitting undoes joining, and the bytes of a
joined text are the joined bytes.
-/
namespace JoinedTexts

open String

theorem atEnd_ofList (cs : List Char) (n : Nat) :
    Pos.Raw.atEnd (ofList cs) ⟨n⟩ = decide (utf8Len cs ≤ n) := by
  rw [Pos.Raw.atEnd, utf8ByteSize_ofList]

/-- With the current piece in `m` and what is left in `r`, the loop finds the pieces of `r`. -/
theorem splitOnAux_singleton (c : Char) (l m r : List Char) (acc : List String) :
    splitOnAux (ofList (l ++ m ++ r)) (singleton c) ⟨utf8Len l⟩ ⟨utf8Len l + utf8Len m⟩ 0 acc =
      acc.reverse ++ (List.splitOnPPrepend (· == c) r m.reverse).map ofList := by
  induction r generalizing l m acc with
  | nil =>
    have hext := extract_of_valid l m []
    have hend : Pos.Raw.atEnd (ofList (l ++ m ++ [])) ⟨utf8Len l + utf8Len m⟩ = true := by
      rw [atEnd_ofList]
      simp [utf8Len_append]
    unfold splitOnAux
    rw [if_pos hend, hext]
    simp [List.splitOnPPrepend]
  | cons d r ih =>
    have hget : Pos.Raw.get (ofList (l ++ m ++ d :: r)) ⟨utf8Len l + utf8Len m⟩ = d := by
      simpa [-ofList_append] using get_of_valid (l ++ m) (d :: r)
    have hnext : Pos.Raw.next (ofList (l ++ m ++ d :: r)) ⟨utf8Len l + utf8Len m⟩ =
        ⟨utf8Len l + utf8Len m + d.utf8Size⟩ := by
      simpa [-ofList_append] using next_of_valid (l ++ m) d r
    have hext := extract_of_valid l m (d :: r)
    have hpos := d.utf8Size_pos
    have hend : ¬ Pos.Raw.atEnd (ofList (l ++ m ++ d :: r)) ⟨utf8Len l + utf8Len m⟩ = true := by
      rw [atEnd_ofList, utf8Len_append, utf8Len_append, utf8Len_cons, decide_eq_true_eq]
      omega
    have hsep : Pos.Raw.get (singleton c) 0 = c := by
      simpa using get_of_valid [] [c]
    have hstep : Pos.Raw.next (singleton c) 0 = ⟨c.utf8Size⟩ := by
      simpa using next_of_valid [] c []
    have hdone : Pos.Raw.atEnd (singleton c) ⟨c.utf8Size⟩ = true := by
      simp [Pos.Raw.atEnd]
    unfold splitOnAux
    rw [if_neg hend, hget, hsep, hnext, hstep]
    by_cases hd : d = c
    · subst hd
      have hback : Pos.Raw.unoffsetBy ⟨utf8Len l + utf8Len m + d.utf8Size⟩ ⟨d.utf8Size⟩ =
          ⟨utf8Len l + utf8Len m⟩ := by
        simp [Pos.Raw.unoffsetBy]
      have hlen : utf8Len (l ++ m ++ [d]) = utf8Len l + utf8Len m + d.utf8Size := by
        simp [utf8Len_append, Nat.add_assoc]
      have happ : l ++ m ++ [d] ++ [] ++ r = l ++ m ++ d :: r := by simp
      have hrest := ih (l ++ m ++ [d]) [] (ofList m :: acc)
      rw [happ, hlen, utf8Len_nil, Nat.add_zero] at hrest
      simp only [beq_self_eq_true, if_true, hdone, hback, hext]
      rw [hrest, List.splitOnPPrepend_cons_eq_if]
      simp
    · have hback : Pos.Raw.unoffsetBy ⟨utf8Len l + utf8Len m⟩ 0 = ⟨utf8Len l + utf8Len m⟩ := rfl
      have hlen : utf8Len l + utf8Len (m ++ [d]) = utf8Len l + utf8Len m + d.utf8Size := by
        simp [utf8Len_append, Nat.add_assoc]
      have happ : l ++ (m ++ [d]) ++ r = l ++ m ++ d :: r := by simp
      have hrest := ih l (m ++ [d]) acc
      rw [happ, hlen] at hrest
      have hbeq : (d == c) = false := beq_eq_false_iff_ne.mpr hd
      simp only [hbeq, Bool.false_eq_true, if_false, hback, hnext]
      rw [hrest, List.splitOnPPrepend_cons_eq_if]
      simp [hbeq]

/-- Splitting on one character is splitting the characters on it. -/
theorem splitOn_singleton (s : String) (c : Char) :
    s.splitOn (singleton c) = (s.toList.splitOn c).map ofList := by
  have h := splitOnAux_singleton c [] [] s.toList []
  have hne : (singleton c == "") = false := by
    simp
  rw [splitOn, hne]
  simpa [List.splitOn_eq_splitOnP] using h

/-- Splitting undoes joining, but that no piece at all comes back as one empty piece. -/
theorem splitOn_intercalate {c : Char} {ts : List String} (h : ∀ t ∈ ts, c ∉ t.toList) :
    ((singleton c).intercalate ts).splitOn (singleton c) = if ts = [] then [""] else ts := by
  rw [splitOn_singleton, toList_intercalate, toList_singleton]
  split
  · next hnil => simp [hnil]
  · next hne =>
    have hpieces : ∀ l ∈ ts.map toList, c ∉ l := by
      intro l hl
      obtain ⟨t, ht, rfl⟩ := List.mem_map.mp hl
      exact h t ht
    rw [List.splitOn_intercalate c hpieces (by simpa using hne), List.map_map]
    simp [Function.comp_def]

/-! ## Bytes -/

def bytesOf (s : String) : List UInt8 := s.toByteArray.data.toList

theorem bytesOf_append (s t : String) : bytesOf (s ++ t) = bytesOf s ++ bytesOf t := by
  simp [bytesOf, toByteArray_append]

theorem bytesOf_intercalate (sep : String) (ts : List String) :
    bytesOf (sep.intercalate ts) = (bytesOf sep).intercalate (ts.map bytesOf) := by
  induction ts with
  | nil => rfl
  | cons t ts ih => cases ts with
    | nil => simp
    | cons u us =>
      rw [intercalate_cons_cons, bytesOf_append, bytesOf_append, ih]
      simp [List.intercalate_cons_cons]

/-- The bytes of a text read back as the text. -/
theorem fromUTF8?_bytesOf (s : String) : fromUTF8? ⟨(bytesOf s).toArray⟩ = some s := by
  have hbytes : (⟨(bytesOf s).toArray⟩ : ByteArray) = s.toByteArray := by simp [bytesOf]
  rw [hbytes, fromUTF8?, dif_pos s.isValidUTF8]
  rfl

/-! ## Parts in front -/

theorem intercalate_append {α : Type} (sep : List α) {xs ys : List (List α)} (hxs : xs ≠ [])
    (hys : ys ≠ []) :
    sep.intercalate (xs ++ ys) = sep.intercalate xs ++ (sep ++ sep.intercalate ys) := by
  induction xs with
  | nil => exact absurd rfl hxs
  | cons x xs ih =>
    rw [List.cons_append, List.intercalate_cons_of_ne_nil (by simp [hys])]
    by_cases hrest : xs = []
    · simp [hrest]
    · rw [ih hrest, List.intercalate_cons_of_ne_nil hrest]
      simp

/-- One text splits into the first parts of another exactly when it is the other, or is in front of
it with a separator in between. -/
theorem splitOn_prefix_iff {α : Type} [BEq α] [LawfulBEq α] {x : α} {a b : List α} :
    a.splitOn x <+: b.splitOn x ↔ b = a ∨ a ++ [x] <+: b := by
  constructor
  · rintro ⟨rest, hrest⟩
    have hb : b = [x].intercalate (a.splitOn x ++ rest) := by
      rw [hrest, List.intercalate_splitOn]
    by_cases hnil : rest = []
    · left
      rw [hb, hnil, List.append_nil, List.intercalate_splitOn]
    · right
      refine ⟨[x].intercalate rest, ?_⟩
      rw [hb, intercalate_append [x] (List.splitOn_ne_nil x a) hnil, List.intercalate_splitOn,
        List.append_assoc]
  · rintro (rfl | ⟨rest, rfl⟩)
    · exact List.prefix_rfl
    · rw [List.append_assoc, List.singleton_append, List.splitOn_append_cons_self]
      exact List.prefix_append _ _

end JoinedTexts

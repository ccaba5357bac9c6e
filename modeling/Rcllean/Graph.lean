import Mathlib.Tactic.Linarith
import Rcllean.JoinedTexts
import Rcllean.Runs

/-!
# Names and types of the graph

The names known to rcl come with lists of types. They cross as two parallel
arrays, each list of types written into one buffer with a separator between
its members, and are split again on the other side. The buffer is filled byte
by byte, never past its end.
-/
namespace Graph

open JoinedTexts Runs

/-- A string in C: its bytes up to the terminator. -/
structure CString where
  bytes : List UInt8
  noNul : 0 ∉ bytes

def CString.memory (s : CString) : List UInt8 := s.bytes ++ [0]

def strlen (memory : List UInt8) : Nat := memory.idxOf 0

/-- `rcl_names_and_types_t`. -/
structure RclNamesAndTypes where
  names : List CString
  types : List (List CString)

structure NameAndTypes where
  name : String
  types : Array String
  deriving DecidableEq, Repr

/-! ## Encoding -/

section
variable (repair : List UInt8 → String) (malloc : Nat → Option (List UInt8))

/-- Bytes that are no text are repaired. -/
def mkStringFromBytes (bytes : List UInt8) : String :=
  (String.fromUTF8? ⟨bytes.toArray⟩).getD (repair bytes)

def mkString : Option CString → String
  | none => ""
  | some s => mkStringFromBytes repair (s.memory.take (strlen s.memory))

def mkStringN (bytes : List UInt8) (len : Nat) : String := mkStringFromBytes repair (bytes.take len)

/-- The memory behind `joined`, and `used`. -/
structure Buffer where
  joined : List UInt8
  used : Nat

/-- `memcpy` to `joined + used`; what it would write past the end has no meaning. -/
def Buffer.append (b : Buffer) (src : List UInt8) : Option Buffer :=
  if b.used + src.length ≤ b.joined.length then
    some ⟨b.joined.take b.used ++ src ++ b.joined.drop (b.used + src.length), b.used + src.length⟩
  else none

/-- A round of the loop over the types: a separator in front of all but the first. -/
def joinRound (b : Buffer) (t : CString × Nat) : Option Buffer := do
  let b ← if t.2 > 0 then b.append [0x1f] else some b
  b.append (t.1.memory.take (strlen t.1.memory))

def joinTypes (types : List CString) : Option String :=
  let total := (types.map fun t => strlen t.memory + 1).sum
  match malloc (total + 1) with
  | none => some ""
  | some joined =>
    (types.zipIdx.foldlM joinRound ⟨joined, 0⟩).map fun b => mkStringN repair b.joined b.used

/-- The two arrays, filled from the first place to the last. -/
def namesAndTypesToLean (nt : RclNamesAndTypes) : Option (Array String × Array String) := do
  let entries ← (List.range nt.names.length).mapM fun i => do
    let name ← nt.names[i]?
    let types ← nt.types[i]?
    let joined ← joinTypes repair malloc types
    return (mkString repair (some name), joined)
  return ((entries.map (·.1)).toArray, (entries.map (·.2)).toArray)

end

/-! ## Decoding -/

def zipNamesAndTypes (names types : Array String) : Array NameAndTypes :=
  names.zipWith (fun n t =>
    { name := n
      types := (t.splitOn "\x1f").filter (!·.isEmpty) |>.toArray }) types

/-! ## Strings that both sides can hold -/

/-- A text that a C string can hold: none of its bytes is the terminator. -/
structure Text where
  text : String
  noNul : 0 ∉ bytesOf text

/-- The name of a type: not empty, and free of the separator. -/
structure TypeName extends Text where
  nonempty : text ≠ ""
  noSeparator : '\x1f' ∉ text.toList

def Text.toCString (t : Text) : CString := ⟨bytesOf t.text, t.noNul⟩

/-- What rcl holds for a list of names and their types. -/
def toRcl (l : List (Text × List TypeName)) : RclNamesAndTypes where
  names := l.map fun e => e.1.toCString
  types := l.map fun e => e.2.map fun t => t.toCString

/-- The same list as the program is to see it. -/
def decoded (l : List (Text × List TypeName)) : Array NameAndTypes :=
  (l.map fun e => ⟨e.1.text, (e.2.map (·.text)).toArray⟩).toArray

/-! ## The loop over the types -/

@[simp] theorem strlen_memory (s : CString) : strlen s.memory = s.bytes.length := by
  rw [strlen, CString.memory, List.idxOf_append_of_notMem s.noNul]
  simp

@[simp] theorem take_memory (s : CString) : s.memory.take s.bytes.length = s.bytes := by
  simp [CString.memory]

/-- What the buffer holds so far. -/
def Buffer.written (b : Buffer) : List UInt8 := b.joined.take b.used

/-- A write that fits extends what is written and leaves the memory as large as it was. -/
theorem append_of_le {b : Buffer} {src : List UInt8} (h : b.used + src.length ≤ b.joined.length) :
    ∃ b', b.append src = some b' ∧ b'.written = b.written ++ src ∧
      b'.used = b.used + src.length ∧ b'.joined.length = b.joined.length := by
  refine ⟨_, if_pos h, ?_, rfl, ?_⟩
  · have hlen : (b.joined.take b.used ++ src).length = b.used + src.length := by
      rw [List.length_append, List.length_take]
      omega
    rw [Buffer.written, ← hlen, List.take_left']
    · rfl
    · rfl
  · simp only [List.length_append, List.length_take, List.length_drop]
    omega

/-- What a round writes. -/
def piece (t : CString × Nat) : List UInt8 := (if t.2 > 0 then [0x1f] else []) ++ t.1.bytes

theorem joinRound_of_le {b : Buffer} {t : CString × Nat}
    (h : b.used + (piece t).length ≤ b.joined.length) :
    ∃ b', joinRound b t = some b' ∧ b'.written = b.written ++ piece t ∧
      b'.used = b.used + (piece t).length ∧ b'.joined.length = b.joined.length := by
  obtain ⟨t, k⟩ := t
  unfold joinRound piece at *
  by_cases hk : k > 0
  · simp only [hk, if_true, List.length_append, List.length_singleton] at h ⊢
    obtain ⟨b₁, hb₁, hw₁, hu₁, hl₁⟩ := append_of_le
      (show b.used + [0x1f].length ≤ b.joined.length by rw [List.length_singleton]; omega)
    obtain ⟨b₂, hb₂, hw₂, hu₂, hl₂⟩ := append_of_le
      (show b₁.used + t.bytes.length ≤ b₁.joined.length by
        rw [hu₁, hl₁, List.length_singleton]; omega)
    refine ⟨b₂, by simp [hb₁, hb₂], by rw [hw₂, hw₁, List.append_assoc], ?_, by rw [hl₂, hl₁]⟩
    rw [hu₂, hu₁, List.length_singleton, Nat.add_assoc]
  · simp only [hk, if_false, List.nil_append] at h ⊢
    obtain ⟨b₁, hb₁, hw₁, hu₁, hl₁⟩ := append_of_le h
    exact ⟨b₁, by simp [hb₁], hw₁, hu₁, hl₁⟩

/-- With room for all of it, the loop writes its pieces one after the other. -/
theorem foldlM_joinRound {ts : List (CString × Nat)} {b : Buffer}
    (h : b.used + (ts.map fun t => (piece t).length).sum ≤ b.joined.length) :
    ∃ b', ts.foldlM joinRound b = some b' ∧ b'.written = b.written ++ ts.flatMap piece := by
  induction ts generalizing b with
  | nil => exact ⟨b, rfl, by simp⟩
  | cons t ts ih =>
    rw [List.map_cons, List.sum_cons] at h
    obtain ⟨b₁, hb₁, hw₁, hu₁, hl₁⟩ := joinRound_of_le (b := b) (t := t) (by omega)
    obtain ⟨b₂, hb₂, hw₂⟩ := ih (b := b₁) (by omega)
    refine ⟨b₂, by simp [List.foldlM_cons, hb₁, hb₂], ?_⟩
    rw [hw₂, hw₁, List.flatMap_cons, List.append_assoc]

/-- The memory asked for has room for every piece. -/
theorem sum_piece_le (types : List CString) (k : Nat) :
    ((types.zipIdx k).map fun t => (piece t).length).sum ≤
      (types.map fun t => strlen t.memory + 1).sum := by
  induction types generalizing k with
  | nil => simp
  | cons t types ih =>
    have hpiece : (piece (t, k)).length ≤ t.bytes.length + 1 := by
      by_cases hk : k > 0 <;> simp [piece, hk]
    have hrest := ih (k + 1)
    simp only [List.zipIdx_cons, List.map_cons, List.sum_cons, strlen_memory] at hrest ⊢
    omega

/-- After the first type, each piece is a separator and a type. -/
theorem flatMap_piece_succ (types : List CString) (k : Nat) :
    (types.zipIdx (k + 1)).flatMap piece = types.flatMap fun t => 0x1f :: t.bytes := by
  induction types generalizing k with
  | nil => rfl
  | cons t types ih => simp [List.zipIdx_cons, piece, ih]

theorem intercalate_cons_flatMap (bs : List UInt8) (types : List CString) :
    [0x1f].intercalate (bs :: types.map (·.bytes)) =
      bs ++ types.flatMap fun t => 0x1f :: t.bytes := by
  induction types generalizing bs with
  | nil => simp
  | cons t types ih =>
    rw [List.map_cons, List.intercalate_cons_cons, ih]
    simp

/-- The pieces together are the types joined with the separator. -/
theorem flatMap_piece (types : List CString) :
    types.zipIdx.flatMap piece = [0x1f].intercalate (types.map (·.bytes)) := by
  cases types with
  | nil => rfl
  | cons t types =>
    rw [List.map_cons, intercalate_cons_flatMap, List.zipIdx_cons, List.flatMap_cons,
      flatMap_piece_succ]
    rfl

/-! ## The crossing -/

/-- `malloc` finds the memory it is asked for. -/
def Allocates (malloc : Nat → Option (List UInt8)) : Prop :=
  ∀ n, ∃ memory, malloc n = some memory ∧ memory.length = n

section
variable {malloc : Nat → Option (List UInt8)} (repair : List UInt8 → String)

theorem mkStringFromBytes_bytesOf (t : String) : mkStringFromBytes repair (bytesOf t) = t := by
  rw [mkStringFromBytes, fromUTF8?_bytesOf, Option.getD_some]

theorem mkString_toCString (t : Text) : mkString repair (some t.toCString) = t.text := by
  rw [mkString, strlen_memory, take_memory]
  exact mkStringFromBytes_bytesOf repair t.text

theorem joinTypes_eq (hm : Allocates malloc) (types : List TypeName) :
    joinTypes repair malloc (types.map fun t => t.toCString) =
      some ("\x1f".intercalate (types.map (·.text))) := by
  obtain ⟨joined, hjoined, hlen⟩ := hm
    (((types.map fun t => t.toCString).map fun t => strlen t.memory + 1).sum + 1)
  have hsum := sum_piece_le (types.map fun t => t.toCString) 0
  have hroom : 0 + ((types.map fun t => t.toCString).zipIdx.map fun t => (piece t).length).sum ≤
      joined.length := by omega
  obtain ⟨b, hb, hw⟩ := @foldlM_joinRound _ ⟨joined, 0⟩ hroom
  have hbytes : (types.map fun t => t.toCString).map (·.bytes) =
      (types.map (·.text)).map bytesOf := by
    simp [Text.toCString, Function.comp_def]
  have hwritten : b.written = bytesOf ("\x1f".intercalate (types.map (·.text))) := by
    rw [hw, flatMap_piece, hbytes, bytesOf_intercalate]
    rfl
  have hread : mkStringN repair b.joined b.used = "\x1f".intercalate (types.map (·.text)) := by
    rw [← mkStringFromBytes_bytesOf repair ("\x1f".intercalate _), ← hwritten]
    rfl
  rw [joinTypes, hjoined]
  simp only [hb, Option.map_some, hread]

theorem namesAndTypesToLean_toRcl (hm : Allocates malloc) (l : List (Text × List TypeName)) :
    namesAndTypesToLean repair malloc (toRcl l) =
      some ((l.map fun e => e.1.text).toArray,
        (l.map fun e => "\x1f".intercalate (e.2.map (·.text))).toArray) := by
  have hlen : (toRcl l).names.length = l.length := by simp [toRcl]
  have hentries := mapM_range (l := l) (Nat.le_refl _)
    (f := fun i => do
      let name ← (toRcl l).names[i]?
      let types ← (toRcl l).types[i]?
      let joined ← joinTypes repair malloc types
      return (mkString repair (some name), joined))
    (g := fun e => (e.1.text, "\x1f".intercalate (e.2.map (·.text))))
    (fun i e he => by
      simp [toRcl, he, joinTypes_eq repair hm, mkString_toCString])
  rw [List.take_length] at hentries
  unfold namesAndTypesToLean
  rw [hlen, hentries]
  simp [Function.comp_def]

end

/-- A joined list of types splits into its members; the empty piece that no type at all leaves is
dropped. -/
theorem splitOn_types (types : List TypeName) :
    (("\x1f".intercalate (types.map (·.text))).splitOn "\x1f").filter (!·.isEmpty) =
      types.map (·.text) := by
  have hsep : ∀ t ∈ types.map (·.text), '\x1f' ∉ t.toList := by
    intro t ht
    obtain ⟨t, -, rfl⟩ := List.mem_map.mp ht
    exact t.noSeparator
  have hsplit := splitOn_intercalate hsep
  rw [show String.singleton '\x1f' = "\x1f" from rfl] at hsplit
  rw [hsplit]
  split
  · next hnil => simp [hnil]
  · next hne =>
    apply List.filter_eq_self.mpr
    intro t ht
    obtain ⟨t, -, rfl⟩ := List.mem_map.mp ht
    simpa using t.nonempty

/-- What crosses and is split again is the list that rcl held. -/
theorem names_and_types_survive {malloc : Nat → Option (List UInt8)} (hm : Allocates malloc)
    (repair : List UInt8 → String) (l : List (Text × List TypeName)) :
    (do let r ← namesAndTypesToLean repair malloc (toRcl l)
        return zipNamesAndTypes r.1 r.2) = some (decoded l) := by
  rw [namesAndTypesToLean_toRcl repair hm]
  simp [zipNamesAndTypes, decoded, splitOn_types, List.zipWith_map]

/-- A topic on which two types are in use and one without any. -/
def chatter : List (Text × List TypeName) :=
  [(⟨"/chatter", by decide⟩, [⟨⟨"std_msgs/msg/String", by decide⟩, by decide, by decide⟩,
      ⟨⟨"std_msgs/msg/Header", by decide⟩, by decide, by decide⟩]),
    (⟨"/silent", by decide⟩, [])]

theorem names_and_types_survive_chatter :
    (do let r ← namesAndTypesToLean (fun _ => "") (fun n => some (List.replicate n 0))
          (toRcl chatter)
        return zipNamesAndTypes r.1 r.2) = some (decoded chatter) :=
  names_and_types_survive (fun _ => ⟨_, rfl, List.length_replicate⟩) (fun _ => "") chatter

end Graph

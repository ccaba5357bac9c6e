import Rcllean.Names
import Rcllean.Overrides
import Rcllean.TokenPatterns

/-!
# Which blocks apply to a node

The key of a block is a pattern over the tokens of a node name. The code
compares it with a few fixed texts instead; the keys on which the two agree
are worked out for every node.
-/
namespace OverrideKeys

open Names Overrides ParamOverrides TokenPatterns

/-! ## The wildcard rules -/

def withSlash (cs : List Char) : List Char := if cs.head? = some '/' then cs else '/' :: cs

def globOf (token : List Char) : Glob (List Char) :=
  if token = ['*'] then .one else if token = ['*', '*'] then .many else .lit token

def keyGlobs (key : String) : List (Glob (List Char)) :=
  (splitOnSlash (withSlash key.toList)).map globOf

/-- The node's name is in the language of the key. -/
def KeyMatches (key nodeFqn : String) : Prop := splitOnSlash nodeFqn.toList ∈ lang (keyGlobs key)

instance (key nodeFqn : String) : Decidable (KeyMatches key nodeFqn) :=
  inferInstanceAs (Decidable (_ ∈ lang _))

/-- A token of the key is a wildcard. -/
def HasWildcard (key : String) : Prop :=
  ∃ t ∈ splitOnSlash (withSlash key.toList), t = ['*'] ∨ t = ['*', '*']

instance (key : String) : Decidable (HasWildcard key) :=
  inferInstanceAs (Decidable (∃ t ∈ _, _))

/-! ## The names of nodes -/

def fullyQualifiedName (node : NodeName) (ns : Namespace) : String :=
  if ns.toString = "/" then "/" ++ node.toString else ns.toString ++ "/" ++ node.toString

theorem slash_not_mem_node (node : NodeName) : '/' ∉ node.toString.toList :=
  slash_not_mem_of_all (all_nameChar_of_token node.isValid)

/-- A namespace other than the root is a slash and its tokens. -/
theorem namespace_cases (ns : Namespace) : ns.toString = "/" ∨
    ∃ body, ns.toString.toList = '/' :: body ∧ namespaceTokensChars ns.toString.toList =
      splitOnSlash body := by
  have h : isValidNamespaceChars ns.toString.toList = true := ns.isValid
  cases hcs : ns.toString.toList with
  | nil => rw [hcs] at h; exact absurd h (by decide)
  | cons c body =>
    have hc : c = '/' := by
      simp only [hcs, isValidNamespaceChars, isValidFullTopicNameChars, Bool.or_eq_true,
        beq_iff_eq, List.cons.injEq, Bool.and_eq_true] at h
      exact h.elim And.left And.left
    subst hc
    by_cases hb : body = []
    · left
      rw [← String.toList_inj, hcs, hb]
      rfl
    · exact .inr ⟨body, rfl, by simp [namespaceTokensChars, hb]⟩

theorem namespaceTokens_eq_nil_iff (ns : Namespace) :
    namespaceTokensChars ns.toString.toList = [] ↔ ns.toString = "/" := by
  constructor
  · intro h
    rcases namespace_cases ns with hroot | ⟨body, -, htokens⟩
    · exact hroot
    · exact absurd (htokens.symm.trans h) (splitOnSlash_ne_nil body)
  · intro h
    rw [h]
    rfl

/-- The tokens of a node name, after the empty one in front of the first slash. -/
theorem splitOnSlash_fullyQualifiedName (node : NodeName) (ns : Namespace) :
    splitOnSlash (fullyQualifiedName node ns).toList =
      [] :: (namespaceTokensChars ns.toString.toList ++ [node.toString.toList]) := by
  have hnode := splitOnSlash_no_slash (slash_not_mem_node node)
  unfold fullyQualifiedName
  split
  · next hroot =>
    rw [String.toList_append, (namespaceTokens_eq_nil_iff ns).mpr hroot]
    simpa [splitOnSlash] using hnode
  · next hroot =>
    obtain ⟨body, hbody, htokens⟩ := (namespace_cases ns).resolve_left hroot
    rw [htokens, String.toList_append, String.toList_append, hbody]
    have happ := splitOnSlash_append body node.toString.toList
    simpa [splitOnSlash, hnode] using happ

/-- The tokens of a node name after the first are legal, and there is one. -/
theorem fullyQualifiedName_tokens (node : NodeName) (ns : Namespace) :
    ∃ t ts, splitOnSlash (fullyQualifiedName node ns).toList = [] :: t :: ts ∧
      ∀ u ∈ t :: ts, isValidTokenChars u = true := by
  have htokens := splitOnSlash_fullyQualifiedName node ns
  have hall : ∀ u ∈ namespaceTokensChars ns.toString.toList ++ [node.toString.toList],
      isValidTokenChars u = true := by
    intro u hu
    rcases List.mem_append.mp hu with hu | hu
    · exact namespaceTokens_valid ns.isValid u hu
    · rw [List.mem_singleton.mp hu]
      exact node.isValid
  cases hts : namespaceTokensChars ns.toString.toList ++ [node.toString.toList] with
  | nil => exact absurd hts (by simp)
  | cons t ts =>
    rw [hts] at htokens hall
    exact ⟨t, ts, htokens, hall⟩

/-- A node name is a slash, and no second one after it. -/
theorem fullyQualifiedName_head (node : NodeName) (ns : Namespace) :
    ∃ r, (fullyQualifiedName node ns).toList = '/' :: r ∧ r.head? ≠ some '/' := by
  obtain ⟨t, ts, htokens, hvalid⟩ := fullyQualifiedName_tokens node ns
  have hjoin := joinSlash_splitOnSlash (fullyQualifiedName node ns).toList
  rw [htokens] at hjoin
  refine ⟨joinSlash (t :: ts), by simpa [joinSlash] using hjoin.symm, ?_⟩
  have ht := hvalid t (by simp)
  cases t with
  | nil => exact absurd ht (by decide)
  | cons c cs =>
    have hslash := slash_not_mem_of_all (all_nameChar_of_token ht)
    have hc : c ≠ '/' := fun h => hslash (by simp [h])
    cases ts <;> simp [joinSlash, hc]

/-! ## What the comparisons come to -/

/-- Fixed texts apart, a key applies when it is the node's name, with or without the slash. -/
theorem applies_iff (key : String) (node : NodeName) (ns : Namespace) :
    applies key (fullyQualifiedName node ns) = true ↔
      isWildcard key = true ∨ withSlash key.toList = (fullyQualifiedName node ns).toList := by
  obtain ⟨r, hr, hhead⟩ := fullyQualifiedName_head node ns
  have hslash : "/" ++ key = fullyQualifiedName node ns ↔ key.toList = r := by
    rw [← String.toList_inj, String.toList_append, hr]
    exact List.cons_inj_right '/'
  have hsame : key = fullyQualifiedName node ns ↔ key.toList = '/' :: r := by
    rw [← String.toList_inj, hr]
  simp only [applies, Bool.or_eq_true, beq_iff_eq, or_assoc, hslash, hsame, hr, List.drop_one,
    List.tail_cons, or_self]
  apply or_congr Iff.rfl
  unfold withSlash
  split
  · next h =>
    have hne : key.toList ≠ r := fun he => hhead (he ▸ h)
    simp [hne]
  · next h =>
    have hne : key.toList ≠ '/' :: r := fun he => h (by simp [he])
    simp [hne]

theorem not_wildcard_of_valid {t : List Char} (h : isValidTokenChars t = true) :
    ¬ (t = ['*'] ∨ t = ['*', '*']) := by
  rintro (rfl | rfl)
  · exact absurd h (by decide)
  · exact absurd h (by decide)

/-- No node has a name with a wildcard in it. -/
theorem withSlash_ne_of_hasWildcard {key : String} (hw : HasWildcard key) (node : NodeName)
    (ns : Namespace) : withSlash key.toList ≠ (fullyQualifiedName node ns).toList := by
  intro h
  obtain ⟨t, ht, hstar⟩ := hw
  obtain ⟨u, us, htokens, hvalid⟩ := fullyQualifiedName_tokens node ns
  rw [h, htokens] at ht
  rcases List.mem_cons.mp ht with rfl | ht
  · simp at hstar
  · exact not_wildcard_of_valid (hvalid t ht) hstar

theorem keyGlobs_of_not_hasWildcard {key : String} (h : ¬ HasWildcard key) :
    keyGlobs key = (splitOnSlash (withSlash key.toList)).map .lit := by
  apply List.map_congr_left
  intro t ht
  have hstar : ¬ (t = ['*'] ∨ t = ['*', '*']) := fun hs => h ⟨t, ht, hs⟩
  rw [not_or] at hstar
  simp [globOf, hstar]

/-- Without a wildcard, a key matches the node it names. -/
theorem keyMatches_of_not_hasWildcard {key : String} (h : ¬ HasWildcard key) (nodeFqn : String) :
    KeyMatches key nodeFqn ↔ withSlash key.toList = nodeFqn.toList := by
  rw [KeyMatches, keyGlobs_of_not_hasWildcard h, mem_lang_map_lit, splitOnSlash_inj, eq_comm]

theorem keyMatches_all {key : String} (h : key = "/**" ∨ key = "**") (node : NodeName)
    (ns : Namespace) : KeyMatches key (fullyQualifiedName node ns) := by
  obtain ⟨t, ts, htokens, -⟩ := fullyQualifiedName_tokens node ns
  have hglobs : keyGlobs key = [.lit [], .many] := by rcases h with rfl | rfl <;> decide
  rw [KeyMatches, hglobs, htokens, mem_lang_lit_cons]
  exact ⟨t :: ts, mem_lang_many _, rfl⟩

/-- A single wildcard matches the nodes of the root namespace. -/
theorem keyMatches_star_iff (node : NodeName) (ns : Namespace) :
    KeyMatches "/*" (fullyQualifiedName node ns) ↔ ns.toString = "/" := by
  have hglobs : keyGlobs "/*" = [.lit [], .one] := by decide
  rw [KeyMatches, hglobs, splitOnSlash_fullyQualifiedName, mem_lang_lit_cons,
    ← namespaceTokens_eq_nil_iff]
  simp [mem_lang_one]

/-! ## Where the two agree -/

/-- The wildcard is one of the texts compared with and stands for the nodes the rules say, or it
is another one, which never applies, and does not match. -/
def Agrees (key : String) (node : NodeName) (ns : Namespace) : Prop :=
  if key = "/**" ∨ key = "**" then True
  else if key = "/*" then ns.toString = "/"
  else HasWildcard key → ¬ KeyMatches key (fullyQualifiedName node ns)

theorem applies_iff_matches_iff (key : String) (node : NodeName) (ns : Namespace) :
    (applies key (fullyQualifiedName node ns) = true ↔
      KeyMatches key (fullyQualifiedName node ns)) ↔ Agrees key node ns := by
  unfold Agrees
  split
  · next hall =>
    have happ : applies key (fullyQualifiedName node ns) = true := by
      rcases hall with rfl | rfl <;> simp [applies, isWildcard]
    simp [happ, keyMatches_all hall]
  · next hall =>
    split
    · next hstar =>
      subst hstar
      have happ : applies "/*" (fullyQualifiedName node ns) = true := by simp [applies, isWildcard]
      rw [keyMatches_star_iff]
      simp [happ]
    · next hstar =>
      rw [not_or] at hall
      have hfixed : isWildcard key = false := by simp [isWildcard, hall, hstar]
      rw [applies_iff]
      by_cases hw : HasWildcard key
      · simp [hfixed, withSlash_ne_of_hasWildcard hw, hw]
      · simp [hfixed, keyMatches_of_not_hasWildcard hw, hw]

/-! ## The table of the matching blocks -/

/-- The matching blocks whose key has no wildcard in it. -/
def matchingOwn (nodeFqn : String) (bs : List NodeParams) : List NodeParams :=
  bs.filter fun b => KeyMatches b.nodeName nodeFqn ∧ ¬ HasWildcard b.nodeName

def matchingWildcards (nodeFqn : String) (bs : List NodeParams) : List NodeParams :=
  bs.filter fun b => KeyMatches b.nodeName nodeFqn ∧ HasWildcard b.nodeName

/-- The table is that of all blocks whose key matches and of no other, with the entries that are
read of each. -/
def UsesMatching (p : RclParams) (nodeFqn : String) : Prop :=
  ∃ t, collectOverrides p nodeFqn = .ok t ∧ ∀ pname, t[pname]? =
    (lastGiven (matchingOwn nodeFqn ((p.getD []).map readNode)) pname).or
      (lastGiven (matchingWildcards nodeFqn ((p.getD []).map readNode)) pname)

theorem hasWildcard_of_isWildcard {key : String} (h : isWildcard key = true) :
    HasWildcard key := by
  simp only [isWildcard, Bool.or_eq_true, beq_iff_eq] at h
  rcases h with (rfl | rfl) | rfl <;> decide

/-- The keys the code compares with a fixed text are the wildcards that match. -/
theorem isWildcard_iff_of_agrees {key : String} {node : NodeName} {ns : Namespace}
    (h : Agrees key node ns) : isWildcard key = true ↔
      KeyMatches key (fullyQualifiedName node ns) ∧ HasWildcard key := by
  have happ := (applies_iff_matches_iff key node ns).mpr h
  constructor
  · intro hw
    exact ⟨happ.mp (by simp [applies, hw]), hasWildcard_of_isWildcard hw⟩
  · rintro ⟨hm, hw⟩
    exact ((applies_iff key node ns).mp (happ.mpr hm)).resolve_right
      (withSlash_ne_of_hasWildcard hw node ns)

theorem own_iff_of_agrees {key : String} {node : NodeName} {ns : Namespace}
    (h : Agrees key node ns) :
    (applies key (fullyQualifiedName node ns) && !isWildcard key) = true ↔
      KeyMatches key (fullyQualifiedName node ns) ∧ ¬ HasWildcard key := by
  have happ := (applies_iff_matches_iff key node ns).mpr h
  rw [Bool.and_eq_true, happ, Bool.not_eq_true', ← Bool.not_eq_true, isWildcard_iff_of_agrees h,
    not_and]
  exact ⟨fun hm => ⟨hm.1, hm.2 hm.1⟩, fun hm => ⟨hm.1, fun _ => hm.2⟩⟩

/-- What the count lets through is filtered like the whole list where the two conditions agree on
it and the second one holds of nothing beyond. -/
theorem filter_counted {bs : List NodeParams} {P Q : NodeParams → Bool}
    (hin : ∀ i b, bs[i]? = some b → i < bs.length % 2 ^ 32 → P b = Q b)
    (hout : ∀ i b, bs[i]? = some b → ¬ i < bs.length % 2 ^ 32 → Q b = false) :
    (counted bs).filter P = bs.filter Q := by
  have hfirst : (counted bs).filter P = (bs.take (bs.length % 2 ^ 32)).filter Q := by
    refine List.filter_congr fun b hb => ?_
    obtain ⟨i, hi⟩ := List.mem_iff_getElem?.mp hb
    rw [counted, List.getElem?_take] at hi
    split at hi
    · next hlt => exact hin i b hi hlt
    · cases hi
  have hrest : (bs.drop (bs.length % 2 ^ 32)).filter Q = [] := by
    refine List.filter_eq_nil_iff.mpr fun b hb => ?_
    obtain ⟨i, hi⟩ := List.mem_iff_getElem?.mp hb
    rw [List.getElem?_drop] at hi
    simp [hout _ b hi (by omega)]
  calc (counted bs).filter P
      = (bs.take (bs.length % 2 ^ 32)).filter Q ++
          (bs.drop (bs.length % 2 ^ 32)).filter Q := by rw [hfirst, hrest, List.append_nil]
    _ = bs.filter Q := by rw [← List.filter_append, List.take_append_drop]

theorem filter_reached (p : RclParams) (P : String → Bool) :
    (reached p).filter (fun b => P b.nodeName) =
      ((counted (p.getD [])).filter fun b => P b.nodeName).map readNode := by
  rw [reached, List.filter_map]
  rfl

/-- Every key within the count is one the comparisons agree on, and none beyond it matches. -/
def KeysAgree (keys : List String) (node : NodeName) (ns : Namespace) : Prop :=
  ∀ i key, keys[i]? = some key →
    if i < keys.length % 2 ^ 32 then Agrees key node ns
    else ¬ KeyMatches key (fullyQualifiedName node ns)

theorem usesMatching_of_keysAgree {p : RclParams} {node : NodeName} {ns : Namespace}
    (h : KeysAgree ((p.getD []).map NodeParams.nodeName) node ns) :
    UsesMatching p (fullyQualifiedName node ns) := by
  have hkey : ∀ i b, (p.getD [])[i]? = some b →
      if i < (p.getD []).length % 2 ^ 32 then Agrees b.nodeName node ns
      else ¬ KeyMatches b.nodeName (fullyQualifiedName node ns) := by
    intro i b hb
    have hi := h i b.nodeName (by rw [List.getElem?_map, hb]; rfl)
    rwa [List.length_map] at hi
  have hown : ownBlocks (fullyQualifiedName node ns) (reached p) =
      matchingOwn (fullyQualifiedName node ns) ((p.getD []).map readNode) := by
    have hfilter := filter_reached p fun key =>
      applies key (fullyQualifiedName node ns) && !isWildcard key
    rw [ownBlocks, hfilter, matchingOwn, List.filter_map]
    congr 1
    refine filter_counted (fun i b hb hlt => ?_) fun i b hb hge => ?_
    · have hagrees := hkey i b hb
      rw [if_pos hlt] at hagrees
      exact Bool.eq_iff_iff.mpr ((own_iff_of_agrees hagrees).trans decide_eq_true_iff.symm)
    · have hnot := hkey i b hb
      rw [if_neg hge] at hnot
      simp [hnot]
  have hwild : wildcardBlocks (reached p) =
      matchingWildcards (fullyQualifiedName node ns) ((p.getD []).map readNode) := by
    rw [wildcardBlocks, filter_reached p isWildcard, matchingWildcards, List.filter_map]
    congr 1
    refine filter_counted (fun i b hb hlt => ?_) fun i b hb hge => ?_
    · have hagrees := hkey i b hb
      rw [if_pos hlt] at hagrees
      exact Bool.eq_iff_iff.mpr ((isWildcard_iff_of_agrees hagrees).trans decide_eq_true_iff.symm)
    · have hnot := hkey i b hb
      rw [if_neg hge] at hnot
      simp [hnot]
  obtain ⟨t, ht, htable⟩ := collectOverrides_eq p (fullyQualifiedName node ns)
  exact ⟨t, ht, by rw [← hown, ← hwild]; exact htable⟩

/-! ## Reading a block off the table -/

theorem lastGiven_eq_none_iff {bs : List NodeParams} {pname : String} :
    lastGiven bs pname = none ↔ ∀ b ∈ bs, ∀ e ∈ b.params, e.name ≠ pname := by
  simp only [lastGiven, List.lookup_eq_none_iff, List.mem_reverse, List.mem_flatMap, entries,
    List.mem_map, bne_iff_ne]
  constructor
  · intro h b hb e he hname
    exact h _ ⟨b, hb, e, he, rfl⟩ hname.symm
  · rintro h _ ⟨b, hb, e, he, rfl⟩ hname
    exact h b hb e he hname.symm

/-- A name is missing when no block of either kind gives it. -/
theorem or_lastGiven_eq_none_iff {bs : List NodeParams} {P Q : NodeParams → Bool}
    {pname : String} :
    (lastGiven (bs.filter P) pname).or (lastGiven (bs.filter Q) pname) = none ↔
      ∀ b ∈ bs, P b = true ∨ Q b = true → ∀ e ∈ b.params, e.name ≠ pname := by
  rw [Option.or_eq_none_iff, lastGiven_eq_none_iff, lastGiven_eq_none_iff]
  simp only [List.mem_filter, and_imp]
  constructor
  · rintro ⟨hP, hQ⟩ b hb (h | h)
    · exact hP b hb h
    · exact hQ b hb h
  · intro h
    exact ⟨fun b hb hP => h b hb (.inl hP), fun b hb hQ => h b hb (.inr hQ)⟩

/-- Blocks with the keys given of which one alone has an entry. -/
def onlyAt (keys : List String) (i : Nat) : List NodeParams :=
  keys.mapIdx fun j key => ⟨key, if j = i then rateBlock.params else []⟩

theorem nodeName_onlyAt (keys : List String) (i : Nat) :
    (onlyAt keys i).map NodeParams.nodeName = keys := by
  refine List.ext_getElem? fun j => ?_
  rw [onlyAt, List.getElem?_map, List.getElem?_mapIdx, Option.map_map]
  exact Option.map_id' ..

/-- Whichever of the blocks are read, its entry is missing exactly when the block is not. -/
theorem onlyAt_missing_iff {keys : List String} {i : Nat} {key : String} (hi : keys[i]? = some key)
    (n : Nat) (P : String → Prop) :
    (∀ b ∈ ((onlyAt keys i).take n).map readNode, P b.nodeName →
      ∀ e ∈ b.params, e.name ≠ "rate") ↔ ¬ (i < n ∧ P key) := by
  have hread : (readNode ⟨key, rateBlock.params⟩).params = rateBlock.params :=
    counted_of_lt (by simp [rateBlock])
  constructor
  · rintro h ⟨hlt, hP⟩
    have hmem : (⟨key, rateBlock.params⟩ : NodeParams) ∈ (onlyAt keys i).take n := by
      refine List.mem_of_getElem? (i := i) ?_
      rw [List.getElem?_take, if_pos hlt, onlyAt, List.getElem?_mapIdx, hi]
      simp
    have hnone := h _ (List.mem_map_of_mem hmem) hP
    rw [hread] at hnone
    exact hnone _ (List.mem_singleton.mpr rfl) rfl
  · intro hnot c hc hP e he
    obtain ⟨b, hb, rfl⟩ := List.mem_map.mp hc
    obtain ⟨j, hj⟩ := List.mem_iff_getElem?.mp hb
    rw [List.getElem?_take] at hj
    split at hj
    · next hlt =>
      rw [onlyAt, List.getElem?_mapIdx] at hj
      obtain ⟨key', hkey', rfl⟩ := Option.map_eq_some_iff.mp hj
      by_cases hji : j = i
      · subst hji
        obtain rfl := Option.some.inj (hi.symm.trans hkey')
        exact absurd ⟨hlt, hP⟩ hnot
      · simp [readNode, counted, hji] at he
    · cases hj

/-- Where the table is that of the matching blocks whatever the blocks hold, a block is read
exactly when its key matches. -/
theorem read_iff_matches {keys : List String} {node : NodeName} {ns : Namespace}
    (h : ∀ p : RclParams, (p.getD []).map NodeParams.nodeName = keys →
      UsesMatching p (fullyQualifiedName node ns)) {i : Nat} {key : String}
    (hi : keys[i]? = some key) :
    (i < keys.length % 2 ^ 32 ∧ applies key (fullyQualifiedName node ns) = true) ↔
      KeyMatches key (fullyQualifiedName node ns) := by
  obtain ⟨t, ht, hclaim⟩ := h (some (onlyAt keys i)) (nodeName_onlyAt keys i)
  obtain ⟨u, hu, htable⟩ := collectOverrides_eq (some (onlyAt keys i)) (fullyQualifiedName node ns)
  obtain rfl : t = u := Except.ok.inj (ht.symm.trans hu)
  have hlen : (onlyAt keys i).length = keys.length := List.length_mapIdx
  have hcode : t["rate"]? = none ↔
      ¬ (i < keys.length % 2 ^ 32 ∧ applies key (fullyQualifiedName node ns) = true) := by
    rw [htable, ownBlocks, wildcardBlocks, or_lastGiven_eq_none_iff,
      ← onlyAt_missing_iff hi _ fun key => applies key (fullyQualifiedName node ns) = true]
    simp only [reached, counted, Option.getD_some, hlen]
    refine forall₂_congr fun b _ => imp_congr_left ?_
    cases hw : isWildcard b.nodeName <;> simp [applies, hw]
  have hrules : t["rate"]? = none ↔ ¬ KeyMatches key (fullyQualifiedName node ns) := by
    have hall : (onlyAt keys i).take keys.length = onlyAt keys i :=
      List.take_of_length_le (Nat.le_of_eq hlen)
    have hlt : i < keys.length := (List.getElem?_eq_some_iff.mp hi).1
    have hmissing := onlyAt_missing_iff hi keys.length fun key =>
      KeyMatches key (fullyQualifiedName node ns)
    rw [hall, and_iff_right hlt] at hmissing
    rw [hclaim, matchingOwn, matchingWildcards, or_lastGiven_eq_none_iff, ← hmissing]
    refine forall₂_congr fun b _ => imp_congr_left ?_
    by_cases hw : HasWildcard b.nodeName <;> simp [hw]
  exact not_iff_not.mp (hcode.symm.trans hrules)

/-- Whatever the blocks under given keys hold, the table is that of the matching blocks exactly
when every key within the count is one the comparisons agree on, and no key beyond it matches. -/
theorem uses_matching_iff (keys : List String) (node : NodeName) (ns : Namespace) :
    (∀ p : RclParams, (p.getD []).map NodeParams.nodeName = keys →
      UsesMatching p (fullyQualifiedName node ns)) ↔ KeysAgree keys node ns := by
  constructor
  · intro h i key hi
    have hread := read_iff_matches h hi
    split
    · next hlt =>
      rw [and_iff_right hlt] at hread
      exact (applies_iff_matches_iff key node ns).mp hread
    · next hge => exact fun hm => hge (hread.mpr hm).1
  · rintro h p rfl
    exact usesMatching_of_keysAgree h

/-- A block for the nodes of the root namespace. -/
def starBlock : NodeParams := { rateBlock with nodeName := "/*" }

/-- It sets `rate` for a node outside it, which no block that matches does. -/
theorem star_reaches_namespaces :
    (∃ t, collectOverrides (some [starBlock])
        (fullyQualifiedName ⟨"n", by decide⟩ ⟨"/ns", by decide⟩) = .ok t ∧
      t["rate"]? = some (.integer 3)) ∧
    ¬ KeyMatches starBlock.nodeName (fullyQualifiedName ⟨"n", by decide⟩ ⟨"/ns", by decide⟩) ∧
    ¬ UsesMatching (some [starBlock])
      (fullyQualifiedName ⟨"n", by decide⟩ ⟨"/ns", by decide⟩) := by
  have hread : reached (some [starBlock]) = [starBlock] :=
    reached_of_small (by simp) (by simp [starBlock, rateBlock])
  generalize hname : fullyQualifiedName ⟨"n", by decide⟩ ⟨"/ns", by decide⟩ = nodeFqn
  have hmatches : ¬ KeyMatches starBlock.nodeName nodeFqn := by
    subst hname
    decide
  obtain ⟨t, ht, htable⟩ := collectOverrides_eq (some [starBlock]) nodeFqn
  have hrate : t["rate"]? = some (.integer 3) := by
    rw [htable, hread]
    rfl
  refine ⟨⟨t, ht, hrate⟩, hmatches, ?_⟩
  rintro ⟨u, hu, hclaim⟩
  obtain rfl : t = u := Except.ok.inj (ht.symm.trans hu)
  have hnone : t["rate"]? = none := by
    rw [hclaim, matchingOwn, matchingWildcards, or_lastGiven_eq_none_iff]
    intro b hb hany
    obtain rfl := List.mem_singleton.mp hb
    rcases hany with h | h
    · exact absurd (of_decide_eq_true h).1 hmatches
    · exact absurd (of_decide_eq_true h).1 hmatches
  rw [hrate] at hnone
  cases hnone

end OverrideKeys

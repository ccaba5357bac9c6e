import Rcllean.OverrideKeys

/-!
# Where a written name leads

The same written name is one topic in some nodes and another in others. What a
name takes of its node, its namespace or its own name, decides which nodes
meet on it. An expanded name takes neither, so written again it leads to
itself.
-/
namespace Topics

open Names OverrideKeys

/-- A name with a slash in front, which no namespace goes before. -/
def Absolute (t : List Char) : Prop := t.head? = some '/'

/-- A name the node's own name goes into: a private one, or one with a substitution. -/
def NamesNode (t : List Char) : Prop := t.head? = some '~' ∨ 0 < nodeSubs t

/-! ## Pieces -/

/-- A token has as many node pieces as it has substitutions. -/
theorem node_mem_iff {t : List Char} {ps : List Piece} (h : parseToken t = some ps) :
    Piece.node ∈ ps ↔ 0 < nodeSubs t := by
  induction t using parseToken.induct generalizing ps with
  | case1 =>
    obtain rfl : ps = [] := by simpa [parseToken, eq_comm] using h
    simp [nodeSubs]
  | case2 rest ih =>
    simp only [parseToken, Option.map_eq_some_iff] at h
    obtain ⟨qs, -, rfl⟩ := h
    rw [nodeSubs_node]
    simp
  | case3 cs hne => simp [parseToken] at h
  | case4 c cs hne hb hc ih =>
    have hbrace : c ≠ '{' := fun he => hb he
    simp only [parseToken, hc, dite_true, Option.map_eq_some_iff] at h
    obtain ⟨qs, hq, rfl⟩ := h
    rw [nodeSubs_other hbrace, ← ih hq]
    simp
  | case5 c cs hne hb hc => simp [parseToken, hc] at h

theorem node_mem_tokens_iff {ts : List (List Char)} {pss : List (List Piece)}
    (h : parseTokens ts = some pss) :
    (∃ ps ∈ pss, Piece.node ∈ ps) ↔ 0 < (ts.map nodeSubs).sum := by
  induction ts generalizing pss with
  | nil =>
    obtain rfl : pss = [] := by simpa [parseTokens, eq_comm] using h
    simp
  | cons t ts ih =>
    cases ht : parseToken t <;> cases hts : parseTokens ts <;> simp [parseTokens, ht, hts] at h
    subst h
    rw [List.exists_mem_cons_iff, node_mem_iff ht, ih hts, List.map_cons, List.sum_cons]
    omega

theorem node_mem_body_iff {cs : List Char} {pss : List (List Piece)}
    (h : parseTokens (splitOnSlash cs) = some pss) :
    (∃ ps ∈ pss, Piece.node ∈ ps) ↔ 0 < nodeSubs cs := by
  rw [node_mem_tokens_iff h, sum_nodeSubs_splitOnSlash]

/-- What the parser makes of a written name, said of its text. -/
theorem splitName_text {t : List Char} {pns : Bool} {ts : List (List Piece)}
    (h : splitName t = some (pns, ts)) :
    (pns = false ↔ Absolute t) ∧ ((∃ ps ∈ ts, Piece.node ∈ ps) ↔ NamesNode t) := by
  unfold splitName at h
  split at h
  · cases h
  · obtain ⟨rfl, rfl⟩ : true = pns ∧ [[Piece.node]] = ts := by simpa using h
    simp [Absolute, NamesNode]
  · next body =>
    simp only [Option.map_eq_some_iff, Prod.mk.injEq] at h
    obtain ⟨pss, hp, rfl, rfl⟩ := h
    simp [Absolute, NamesNode]
  · cases h
  · next body =>
    simp only [Option.map_eq_some_iff, Prod.mk.injEq] at h
    obtain ⟨pss, hp, rfl, rfl⟩ := h
    rw [node_mem_body_iff hp, NamesNode, nodeSubs_other (by decide)]
    simp [Absolute]
  · next hnil h1 h2 h3 h4 =>
    simp only [Option.map_eq_some_iff, Prod.mk.injEq] at h
    obtain ⟨pss, hp, rfl, rfl⟩ := h
    rw [node_mem_body_iff hp]
    cases t with
    | nil => exact absurd rfl hnil
    | cons c cs =>
      have hslash : c ≠ '/' := by
        rintro rfl
        exact h4 cs rfl
      have htilde : c ≠ '~' := by
        rintro rfl
        exact h3 cs rfl
      simp [Absolute, NamesNode, hslash, htilde]

/-! ## What two expansions have in common -/

theorem length_render_eq (a : List Char) (ps : List Piece) :
    (render a ps).length = (render [] ps).length + ps.countP (· matches .node) * a.length := by
  induction ps with
  | nil => simp [render]
  | cons p ps ih => cases p with
    | lit c h =>
      simp only [render, List.length_cons, ih, List.countP_cons]
      simp
      omega
    | node =>
      simp only [render, List.length_append, ih, List.countP_cons]
      simp [Nat.add_mul]
      omega

/-- A token that has the node's name in it gives the name away. -/
theorem render_inj {a b : List Char} {ps : List Piece} (hnode : Piece.node ∈ ps)
    (h : render a ps = render b ps) : a = b := by
  have hlen : a.length = b.length := by
    have hpos : 0 < ps.countP (· matches .node) := List.countP_pos_iff.mpr ⟨.node, hnode, rfl⟩
    have heq := congrArg List.length h
    rw [length_render_eq a, length_render_eq b] at heq
    exact Nat.eq_of_mul_eq_mul_left hpos (by omega)
  induction ps with
  | nil => cases hnode
  | cons p ps ih => cases p with
    | lit c hc =>
      have hnode' : Piece.node ∈ ps := by simpa using hnode
      exact ih hnode' (List.cons.inj h).2
    | node => exact (List.append_inj h hlen).1

theorem render_of_not_mem {a b : List Char} {ps : List Piece} (hnode : Piece.node ∉ ps) :
    render a ps = render b ps := by
  induction ps with
  | nil => rfl
  | cons p ps ih =>
    rw [List.mem_cons, not_or] at hnode
    cases p with
    | lit c h => exact congrArg (c :: ·) (ih hnode.2)
    | node => exact absurd rfl hnode.1

theorem map_render_eq_iff {a b : List Char} {ts : List (List Piece)} :
    ts.map (render a) = ts.map (render b) ↔ (¬∃ ps ∈ ts, Piece.node ∈ ps) ∨ a = b := by
  constructor
  · intro h
    by_cases hnode : ∃ ps ∈ ts, Piece.node ∈ ps
    · obtain ⟨ps, hps, hmem⟩ := hnode
      exact .inr (render_inj hmem (List.map_inj_left.mp h ps hps))
    · exact .inl hnode
  · rintro (hnode | rfl)
    · exact List.map_inj_left.mpr fun ps hps => render_of_not_mem fun hmem => hnode ⟨ps, hps, hmem⟩
    · rfl

/-- Splitting undoes joining. -/
theorem splitOnSlash_joinSlash {ts : List (List Char)} (hne : ts ≠ [])
    (h : ∀ t ∈ ts, isValidTokenChars t = true) : splitOnSlash (joinSlash ts) = ts := by
  induction ts with
  | nil => exact absurd rfl hne
  | cons t ts ih =>
    have ht := slash_not_mem_of_all (all_nameChar_of_token (h t List.mem_cons_self))
    cases ts with
    | nil => exact splitOnSlash_no_slash ht
    | cons u us =>
      have htail := ih (List.cons_ne_nil u us) fun x hx => h x (List.mem_cons_of_mem t hx)
      have hjoin : joinSlash (t :: u :: us) = t ++ '/' :: joinSlash (u :: us) := rfl
      rw [hjoin, splitOnSlash_append, splitOnSlash_no_slash ht, htail]
      rfl

/-- Two namespaces of the same tokens are the same. -/
theorem namespaceTokens_inj {a b : Namespace}
    (h : namespaceTokensChars a.toString.toList = namespaceTokensChars b.toString.toList) :
    a = b := by
  have htext : a.toString = b.toString := by
    rcases namespace_cases a with ha | ⟨body, hbody, htokens⟩
    · rw [(namespaceTokens_eq_nil_iff a).mpr ha] at h
      rw [ha, (namespaceTokens_eq_nil_iff b).mp h.symm]
    · rcases namespace_cases b with hb | ⟨body', hbody', htokens'⟩
      · rw [(namespaceTokens_eq_nil_iff b).mpr hb] at h
        rw [hb, (namespaceTokens_eq_nil_iff a).mp h]
      · rw [htokens, htokens', splitOnSlash_inj] at h
        rw [← String.toList_inj, hbody, hbody', h]
  cases a
  cases b
  cases htext
  rfl

theorem node_eq_iff {a b : NodeName} : a = b ↔ a.toString.toList = b.toString.toList := by
  cases a
  cases b
  simp [String.toList_inj]

theorem expand_eq_iff_tokens (t : TopicName) (node node' : NodeName) (ns ns' : Namespace) :
    t.expand node ns = t.expand node' ns' ↔
      expandTokens t.toString.toList node.toString.toList
          (namespaceTokensChars ns.toString.toList) =
        expandTokens t.toString.toList node'.toString.toList
          (namespaceTokensChars ns'.toString.toList) := by
  obtain ⟨hne, hvalid⟩ := expandTokens_valid t.isValid node.isValid ns.isValid
  obtain ⟨hne', hvalid'⟩ := expandTokens_valid t.isValid node'.isValid ns'.isValid
  simp only [TopicName.expand, FullTopicName.mk.injEq, String.ofList_inj, expandChars,
    List.cons.injEq, true_and]
  constructor
  · intro h
    rw [← splitOnSlash_joinSlash hne hvalid, h, splitOnSlash_joinSlash hne' hvalid']
  · exact congrArg joinSlash

/-- Two nodes meet on a written name exactly when they have in common what it takes of them: the
namespace, unless it is absolute, and the name, if it names the node. -/
theorem shared_iff (t : TopicName) (node node' : NodeName) (ns ns' : Namespace) :
    t.expand node ns = t.expand node' ns' ↔
      (Absolute t.toString.toList ∨ ns = ns') ∧
        (NamesNode t.toString.toList → node = node') := by
  obtain ⟨pns, ts, hsplit, -, -⟩ := splitName_valid t.isValid
  obtain ⟨hslash, hnode⟩ := splitName_text hsplit
  have hrest : ts.map (render node.toString.toList) = ts.map (render node'.toString.toList) ↔
      (NamesNode t.toString.toList → node = node') := by
    rw [map_render_eq_iff, hnode, node_eq_iff, imp_iff_not_or]
  rw [expand_eq_iff_tokens, ← hrest, ← hslash]
  simp only [expandTokens, hsplit]
  cases pns with
  | false => simp
  | true =>
    simp only [if_true, Bool.true_eq_false, false_or]
    constructor
    · intro h
      -- as many tokens come of the written name on both sides
      obtain ⟨hns, hmap⟩ := List.append_inj' h (by rw [List.length_map, List.length_map])
      exact ⟨namespaceTokens_inj hns, hmap⟩
    · rintro ⟨rfl, hmap⟩
      rw [hmap]

/-! ## Expanded names -/

theorem parseToken_cons {c : Char} (h : isNameChar c = true) (cs : List Char) :
    parseToken (c :: cs) = (parseToken cs).map (Piece.lit c h :: ·) := by
  have hbrace : c ≠ '{' := by
    rintro rfl
    exact absurd h (by decide)
  simp [parseToken, hbrace, h]

/-- A text of name characters is all literal. -/
theorem parseToken_of_all {t : List Char} (h : t.all isNameChar = true) :
    ∃ ps, parseToken t = some ps ∧ ∀ node, render node ps = t := by
  induction t with
  | nil => exact ⟨[], rfl, fun _ => rfl⟩
  | cons c cs ih =>
    rw [List.all_cons, Bool.and_eq_true] at h
    obtain ⟨ps, hps, hrender⟩ := ih h.2
    refine ⟨.lit c h.1 :: ps, ?_, fun node => congrArg (c :: ·) (hrender node)⟩
    rw [parseToken_cons h.1, hps]
    rfl

theorem parseToken_of_valid {t : List Char} (h : isValidTokenChars t = true) :
    ∃ ps, parseToken t = some ps ∧ headPieceOk ps = true ∧ ∀ node, render node ps = t := by
  cases t with
  | nil => cases h
  | cons c cs =>
    rw [isValidTokenChars, Bool.and_eq_true, List.all_cons, Bool.and_eq_true] at h
    obtain ⟨ps, hps, hrender⟩ := parseToken_of_all h.2.2
    refine ⟨.lit c h.2.1 :: ps, ?_, h.1, fun node => congrArg (c :: ·) (hrender node)⟩
    rw [parseToken_cons h.2.1, hps]
    rfl

theorem parseTokens_of_valid {ts : List (List Char)} (h : ∀ t ∈ ts, isValidTokenChars t = true) :
    ∃ pss, parseTokens ts = some pss ∧ (∀ ps ∈ pss, headPieceOk ps = true) ∧
      ∀ node, pss.map (render node) = ts := by
  induction ts with
  | nil => exact ⟨[], rfl, by simp, fun _ => rfl⟩
  | cons t ts ih =>
    obtain ⟨ps, hps, hhead, hrender⟩ := parseToken_of_valid (h t List.mem_cons_self)
    obtain ⟨pss, hpss, hheads, hrenders⟩ := ih fun u hu => h u (List.mem_cons_of_mem t hu)
    refine ⟨ps :: pss, by simp [parseTokens, hps, hpss], ?_, fun node => ?_⟩
    · exact List.forall_mem_cons.mpr ⟨hhead, hheads⟩
    · rw [List.map_cons, hrender, hrenders]

/-- An expanded name is good as a written one, and wherever it is written it leads to itself. -/
theorem expand_full (f : FullTopicName) : ∃ h : isValidTopicName f.toString = true,
    ∀ node ns, (TopicName.mk f.toString h).expand node ns = f := by
  obtain ⟨name, hname⟩ := f
  obtain ⟨body, hbody, hvalid⟩ : ∃ body, name.toList = '/' :: body ∧
      ∀ t ∈ splitOnSlash body, isValidTokenChars t = true := by
    unfold isValidFullTopicName isValidFullTopicNameChars at hname
    split at hname
    · cases hname
    · next c cs hcs =>
      rw [Bool.and_eq_true, beq_iff_eq] at hname
      exact ⟨cs, by rw [hcs, hname.1], List.all_eq_true.mp hname.2⟩
  obtain ⟨pss, hpss, hheads, hrender⟩ := parseTokens_of_valid hvalid
  have hsplit : splitName name.toList = some (false, pss) := by
    simp [hbody, splitName, hpss]
  have hne : pss ≠ [] := by
    rintro rfl
    exact splitOnSlash_ne_nil body (hrender []).symm
  refine ⟨?_, fun node ns => ?_⟩
  · rw [isValidTopicName, isValidTopicNameChars, hsplit]
    simpa [hne] using hheads
  · simp only [TopicName.expand, FullTopicName.mk.injEq, expandChars, expandTokens, hsplit, hrender]
    simp only [Bool.false_eq_true, if_false, List.nil_append, joinSlash_splitOnSlash, ← hbody,
      String.ofList_toList]

end Topics

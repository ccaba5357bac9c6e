import Mathlib.Data.List.Basic
import Mathlib.Tactic.Linarith

/-!
# ROS names and their expansion

Two rule sets, over characters. A name as written may be relative, private or
carry `{node}` substitutions; an expanded name is absolute. Expansion lands in
the second set for every name of the first. The length of an expansion is
computed here from the written name alone, since the middleware bounds it.
-/
namespace Names

/-- Letters, digits and underscore. -/
def isNameChar (c : Char) : Bool := c.isAlpha || c.isDigit || c == '_'

/-- Prepend a character to the first piece of a split. -/
def consFirst (c : Char) : List (List Char) → List (List Char)
  | [] => [[c]]
  | t :: ts => (c :: t) :: ts

/-- Split on slashes, keeping empty pieces. -/
def splitOnSlash : List Char → List (List Char)
  | [] => [[]]
  | c :: cs => if c == '/' then [] :: splitOnSlash cs else consFirst c (splitOnSlash cs)

def joinSlash : List (List Char) → List Char
  | [] => []
  | [t] => t
  | t :: ts => t ++ '/' :: joinSlash ts

/-- A legal component: not empty, of name characters, not starting with a digit. -/
def isValidTokenChars : List Char → Bool
  | [] => false
  | c :: cs => !c.isDigit && (c :: cs).all isNameChar

def isValidFullTopicNameChars : List Char → Bool
  | [] => false
  | c :: cs => c == '/' && (splitOnSlash cs).all isValidTokenChars

def isValidFullTopicName (s : String) : Bool := isValidFullTopicNameChars s.toList

def isValidNodeName (s : String) : Bool := isValidTokenChars s.toList

/-- The root, or an expanded name. -/
def isValidNamespaceChars (cs : List Char) : Bool := cs == ['/'] || isValidFullTopicNameChars cs

def isValidNamespace (s : String) : Bool := isValidNamespaceChars s.toList

/-- A piece of a token as written: a literal name character or the node name. -/
inductive Piece where
  | lit (c : Char) (h : isNameChar c = true)
  | node

/-- `none` for a character that is not allowed, an unbalanced brace or another substitution. -/
def parseToken : List Char → Option (List Piece)
  | [] => some []
  | '{' :: 'n' :: 'o' :: 'd' :: 'e' :: '}' :: rest => (parseToken rest).map (Piece.node :: ·)
  | '{' :: _ => none
  | c :: cs => if h : isNameChar c = true then (parseToken cs).map (Piece.lit c h :: ·) else none

def parseTokens : List (List Char) → Option (List (List Piece))
  | [] => some []
  | t :: ts => match parseToken t, parseTokens ts with
    | some ps, some pss => some (ps :: pss)
    | _, _ => none

/-- Not empty, and not starting with a digit. -/
def headPieceOk : List Piece → Bool
  | [] => false
  | .node :: _ => true
  | .lit c _ :: _ => !c.isDigit

/-- The tokens of a written name, and whether the namespace goes in front of them. -/
def splitName : List Char → Option (Bool × List (List Piece))
  | [] => none
  | ['~'] => some (true, [[Piece.node]])
  | '~' :: '/' :: body => (parseTokens (splitOnSlash body)).map fun ts => (true, [Piece.node] :: ts)
  | '~' :: _ => none
  | '/' :: body => (parseTokens (splitOnSlash body)).map fun ts => (false, ts)
  | cs => (parseTokens (splitOnSlash cs)).map fun ts => (true, ts)

def isValidTopicNameChars (t : List Char) : Bool :=
  match splitName t with
  | some (_, ts) => !ts.isEmpty && ts.all headPieceOk
  | none => false

def isValidTopicName (s : String) : Bool := isValidTopicNameChars s.toList

/-- A fully qualified topic or service name. -/
structure FullTopicName where
  toString : String
  isValid : isValidFullTopicName toString = true
  deriving Repr

/-- A topic or service name as written. -/
structure TopicName where
  toString : String
  isValid : isValidTopicName toString = true
  deriving Repr

structure NodeName where
  toString : String
  isValid : isValidNodeName toString = true
  deriving Repr

structure Namespace where
  toString : String
  isValid : isValidNamespace toString = true
  deriving Repr

/-- Fill the node name into the pieces of a token. -/
def render (node : List Char) : List Piece → List Char
  | [] => []
  | .lit c _ :: ps => c :: render node ps
  | .node :: ps => node ++ render node ps

/-- The tokens of a namespace: none for the root. -/
def namespaceTokensChars : List Char → List (List Char)
  | [] => []
  | _ :: rest => if rest.isEmpty then [] else splitOnSlash rest

def expandTokens (t node : List Char) (nsToks : List (List Char)) : List (List Char) :=
  match splitName t with
  | some (pns, ts) => (if pns then nsToks else []) ++ ts.map (render node)
  | none => []

def expandChars (t node ns : List Char) : List Char :=
  '/' :: joinSlash (expandTokens t node (namespaceTokensChars ns))

/-! ## Expanded names are well formed -/

theorem consFirst_ne_nil (c : Char) (l : List (List Char)) : consFirst c l ≠ [] := by
  cases l <;> simp [consFirst]

theorem splitOnSlash_ne_nil (cs : List Char) : splitOnSlash cs ≠ [] := by
  cases cs with
  | nil => simp [splitOnSlash]
  | cons c cs => unfold splitOnSlash; split <;> simp [consFirst_ne_nil]

theorem consFirst_append (c : Char) {l : List (List Char)} (h : l ≠ []) (m : List (List Char)) :
    consFirst c (l ++ m) = consFirst c l ++ m := by
  cases l with
  | nil => exact absurd rfl h
  | cons t ts => rfl

/-- Splitting a join splits at the joint. -/
theorem splitOnSlash_append (a b : List Char) :
    splitOnSlash (a ++ '/' :: b) = splitOnSlash a ++ splitOnSlash b := by
  induction a with
  | nil => simp [splitOnSlash]
  | cons c a ih =>
    by_cases hc : c = '/'
    · simp [splitOnSlash, hc, ih]
    · simp [splitOnSlash, hc, ih, consFirst_append c (splitOnSlash_ne_nil a)]

/-- A piece with no slash in it splits into itself. -/
theorem splitOnSlash_no_slash {cs : List Char} (h : '/' ∉ cs) : splitOnSlash cs = [cs] := by
  induction cs with
  | nil => rfl
  | cons c cs ih =>
    simp only [List.mem_cons, not_or] at h
    simp [splitOnSlash, Ne.symm h.1, ih h.2, consFirst]

/-- Joining undoes splitting. -/
theorem joinSlash_splitOnSlash (cs : List Char) : joinSlash (splitOnSlash cs) = cs := by
  induction cs with
  | nil => rfl
  | cons c cs ih =>
    cases h : splitOnSlash cs with
    | nil => exact absurd h (splitOnSlash_ne_nil cs)
    | cons t ts =>
      rw [h] at ih
      by_cases hc : c = '/'
      · simp [splitOnSlash, hc, h, joinSlash, ih]
      · cases ts with
        | nil => simpa [splitOnSlash, hc, h, consFirst, joinSlash] using ih
        | cons u us => simpa [splitOnSlash, hc, h, consFirst, joinSlash] using ih

/-- Two texts that split into the same pieces are the same. -/
theorem splitOnSlash_inj {a b : List Char} : splitOnSlash a = splitOnSlash b ↔ a = b := by
  constructor
  · intro h
    rw [← joinSlash_splitOnSlash a, h, joinSlash_splitOnSlash]
  · rintro rfl
    rfl

/-- A name is a slash-free piece, or one followed by a slash and a name. -/
theorem slash_induction {P : List Char → Prop} (base : ∀ cs, '/' ∉ cs → P cs)
    (step : ∀ a b, '/' ∉ a → P b → P (a ++ '/' :: b)) (cs : List Char) : P cs := by
  have h : ∀ a, '/' ∉ a → P (a ++ cs) := by
    induction cs with
    | nil => intro a ha; simpa using base a ha
    | cons c cs ih =>
      intro a ha
      by_cases hc : c = '/'
      · subst hc
        exact step a cs ha (ih [] (by simp))
      · have := ih (a ++ [c]) (by simp [ha, Ne.symm hc])
        simpa using this
  exact h [] (by simp)

theorem slash_not_mem_of_all {cs : List Char} (h : cs.all isNameChar = true) : '/' ∉ cs := by
  intro hm
  exact absurd (List.all_eq_true.mp h '/' hm) (by decide)

theorem all_nameChar_of_token {t : List Char} (h : isValidTokenChars t = true) :
    t.all isNameChar = true := by
  cases t with
  | nil => rfl
  | cons c cs => simp only [isValidTokenChars, Bool.and_eq_true] at h; exact h.2

/-- Joining valid tokens gives a body all of whose tokens are valid. -/
theorem all_valid_join (ts : List (List Char)) (hne : ts ≠ [])
    (h : ∀ t ∈ ts, isValidTokenChars t = true) :
    ∀ t ∈ splitOnSlash (joinSlash ts), isValidTokenChars t = true := by
  induction ts with
  | nil => exact absurd rfl hne
  | cons t ts ih =>
    have ht := h t (by simp)
    have hsplit := splitOnSlash_no_slash (slash_not_mem_of_all (all_nameChar_of_token ht))
    cases ts with
    | nil => simpa [joinSlash, hsplit] using ht
    | cons u us =>
      have htail := ih (by simp) fun x hx => h x (List.mem_cons_of_mem _ hx)
      have hjoin : joinSlash (t :: u :: us) = t ++ '/' :: joinSlash (u :: us) := rfl
      rw [hjoin, splitOnSlash_append, hsplit]
      simpa [ht] using htail

theorem render_all_nameChar {node : List Char} (hn : node.all isNameChar = true) (ps : List Piece) :
    (render node ps).all isNameChar = true := by
  induction ps with
  | nil => rfl
  | cons p ps ih => cases p with
    | lit c hc => simp only [render, List.all_cons, hc, ih, Bool.and_self]
    | node => simp only [render, List.all_append, hn, ih, Bool.and_self]

/-- Rendering a token that does not start with a digit gives a valid token. -/
theorem render_valid {node : List Char} (hn : isValidTokenChars node = true) {ps : List Piece}
    (hp : headPieceOk ps = true) : isValidTokenChars (render node ps) = true := by
  have hall := render_all_nameChar (all_nameChar_of_token hn) ps
  cases ps with
  | nil => simp [headPieceOk] at hp
  | cons p ps => cases p with
    | lit c hc =>
      simp only [headPieceOk] at hp
      simp only [render] at hall ⊢
      simp only [isValidTokenChars, hp, hall, Bool.and_self]
    | node => cases node with
      | nil => simp [isValidTokenChars] at hn
      | cons d ds =>
        simp only [isValidTokenChars, Bool.and_eq_true] at hn
        simp only [render, List.cons_append] at hall ⊢
        simp only [isValidTokenChars, hn.1, hall, Bool.and_self]

theorem namespaceTokens_valid {ns : List Char} (h : isValidNamespaceChars ns = true) :
    ∀ t ∈ namespaceTokensChars ns, isValidTokenChars t = true := by
  cases ns with
  | nil => simp [namespaceTokensChars]
  | cons c rest =>
    by_cases hr : rest = []
    · simp [namespaceTokensChars, hr]
    · have hc : (splitOnSlash rest).all isValidTokenChars = true := by
        simp only [isValidNamespaceChars, isValidFullTopicNameChars, Bool.or_eq_true, beq_iff_eq,
          List.cons.injEq, hr, and_false, false_or, Bool.and_eq_true] at h
        exact h.2
      simpa [namespaceTokensChars, hr] using List.all_eq_true.mp hc

/-- What a written name is made of, once the parser has accepted it. -/
theorem splitName_valid {t : List Char} (ht : isValidTopicNameChars t = true) :
    ∃ pns ts, splitName t = some (pns, ts) ∧ ts ≠ [] ∧ ∀ ps ∈ ts, headPieceOk ps = true := by
  unfold isValidTopicNameChars at ht
  split at ht
  · rename_i pns ts hs
    simp only [Bool.and_eq_true, Bool.not_eq_true', List.isEmpty_eq_false_iff,
      List.all_eq_true] at ht
    exact ⟨pns, ts, hs, ht.1, ht.2⟩
  · exact absurd ht (by simp)

theorem expandTokens_valid {t node ns : List Char} (ht : isValidTopicNameChars t = true)
    (hn : isValidTokenChars node = true) (hs : isValidNamespaceChars ns = true) :
    expandTokens t node (namespaceTokensChars ns) ≠ [] ∧
      ∀ u ∈ expandTokens t node (namespaceTokensChars ns), isValidTokenChars u = true := by
  obtain ⟨pns, ts, hsplit, hne, hheads⟩ := splitName_valid ht
  simp only [expandTokens, hsplit]
  refine ⟨by simp [hne], fun u hu => ?_⟩
  rcases List.mem_append.mp hu with hu | hu
  · refine namespaceTokens_valid hs u ?_
    cases pns <;> simp_all
  · obtain ⟨ps, hps, rfl⟩ := List.mem_map.mp hu
    exact render_valid hn (hheads ps hps)

/-- Every name that passes the rules before expansion expands to one that passes those after. -/
theorem expandChars_valid {t node ns : List Char} (ht : isValidTopicNameChars t = true)
    (hn : isValidTokenChars node = true) (hs : isValidNamespaceChars ns = true) :
    isValidFullTopicNameChars (expandChars t node ns) = true := by
  obtain ⟨hne, hall⟩ := expandTokens_valid ht hn hs
  simpa [expandChars, isValidFullTopicNameChars] using all_valid_join _ hne hall

/-- Expand a name against a node; valid by construction, with no check at run time. -/
def TopicName.expand (t : TopicName) (node : NodeName) (ns : Namespace) : FullTopicName :=
  ⟨String.ofList (expandChars t.toString.toList node.toString.toList ns.toString.toList), by
    unfold isValidFullTopicName
    rw [String.toList_ofList]
    exact expandChars_valid t.isValid node.isValid ns.isValid⟩

/-! ## How long an expansion is -/

/-- How many times `{node}` occurs in a written name. -/
def nodeSubs : List Char → Nat
  | [] => 0
  | c :: cs => (if "{node}".toList.isPrefixOf (c :: cs) then 1 else 0) + nodeSubs cs

/-- What a namespace puts in front of a name: nothing for the root. -/
def namespaceLength (ns : List Char) : Nat := if ns = ['/'] then 0 else ns.length

/-- The length of an expansion, from the written name, the node name and the namespace. -/
def expandedLength (t node ns : List Char) : Nat :=
  let body := t.length + nodeSubs t * node.length - 6 * nodeSubs t
  match t with
  | '/' :: _ => body
  | '~' :: _ => namespaceLength ns + node.length + body
  | _ => namespaceLength ns + 1 + body

/-- The length of the tokens with a slash in front of each. -/
def slashed (ts : List (List Char)) : Nat := (ts.map fun t => t.length + 1).sum

theorem length_joinSlash (ts : List (List Char)) (hne : ts ≠ []) :
    (joinSlash ts).length + 1 = slashed ts := by
  induction ts with
  | nil => exact absurd rfl hne
  | cons t ts ih => cases ts with
    | nil => simp [joinSlash, slashed]
    | cons u us =>
      have := ih (by simp)
      simp only [slashed, List.map_cons, List.sum_cons] at this ⊢
      simp only [joinSlash, List.length_append, List.length_cons]
      omega

theorem slashed_splitOnSlash (cs : List Char) : slashed (splitOnSlash cs) = cs.length + 1 := by
  induction cs using slash_induction with
  | base cs h => simp [splitOnSlash_no_slash h, slashed]
  | step a b ha ih =>
    rw [splitOnSlash_append, splitOnSlash_no_slash ha]
    simp only [slashed, List.singleton_append, List.map_cons, List.sum_cons, List.length_append,
      List.length_cons] at ih ⊢
    omega

theorem isPrefixOf_append_slash {p : List Char} (hp : '/' ∉ p) (a b : List Char) :
    p.isPrefixOf (a ++ '/' :: b) = p.isPrefixOf a := by
  induction p generalizing a with
  | nil => simp
  | cons c p ih =>
    simp only [List.mem_cons, not_or] at hp
    cases a with
    | nil => simp [List.isPrefixOf, Ne.symm hp.1]
    | cons d a => simp [List.isPrefixOf, ih hp.2]

/-- No substitution reaches across a slash. -/
theorem nodeSubs_append_slash (a b : List Char) :
    nodeSubs (a ++ '/' :: b) = nodeSubs a + nodeSubs b := by
  induction a with
  | nil => simp [nodeSubs]
  | cons c a ih =>
    have h := isPrefixOf_append_slash (p := "{node}".toList) (by decide) (c :: a) b
    rw [List.cons_append] at h ⊢
    simp only [nodeSubs, h, ih]
    omega

theorem nodeSubs_node (cs : List Char) :
    nodeSubs ('{' :: 'n' :: 'o' :: 'd' :: 'e' :: '}' :: cs) = 1 + nodeSubs cs := by
  simp [nodeSubs]

theorem nodeSubs_other {c : Char} (hc : c ≠ '{') (cs : List Char) :
    nodeSubs (c :: cs) = nodeSubs cs := by
  simp [nodeSubs, Ne.symm hc]

/-- Rendering a token swaps each six-character substitution for the node name. -/
theorem length_render (node : List Char) {t : List Char} {ps : List Piece}
    (h : parseToken t = some ps) :
    (render node ps).length + 6 * nodeSubs t = t.length + nodeSubs t * node.length := by
  induction t using parseToken.induct generalizing ps with
  | case1 => simp_all [parseToken, render, nodeSubs]
  | case2 rest ih =>
    simp only [parseToken, Option.map_eq_some_iff] at h
    obtain ⟨qs, hq, rfl⟩ := h
    have := ih hq
    simp only [render, List.length_append, nodeSubs_node, List.length_cons]
    rw [Nat.add_mul]
    omega
  | case3 cs hne => simp [parseToken] at h
  | case4 c cs hne hb hc ih =>
    have hbrace : c ≠ '{' := fun he => hb he
    simp only [parseToken, hc, dite_true, Option.map_eq_some_iff] at h
    obtain ⟨qs, hq, rfl⟩ := h
    have := ih hq
    simp only [render, List.length_cons, nodeSubs_other hbrace]
    omega
  | case5 c cs hne hb hc => simp [parseToken, hc] at h

theorem length_render_tokens (node : List Char) {ts : List (List Char)} {pss : List (List Piece)}
    (h : parseTokens ts = some pss) :
    slashed (pss.map (render node)) + 6 * (ts.map nodeSubs).sum =
      slashed ts + (ts.map nodeSubs).sum * node.length := by
  induction ts generalizing pss with
  | nil =>
    obtain rfl : pss = [] := by simpa [parseTokens, eq_comm] using h
    simp [slashed]
  | cons t ts ih =>
    cases ht : parseToken t <;> cases hts : parseTokens ts <;> simp [parseTokens, ht, hts] at h
    subst h
    have hone := length_render node ht
    have hrest := ih hts
    simp only [slashed, List.map_cons, List.sum_cons, Nat.add_mul] at hrest ⊢
    omega

theorem sum_nodeSubs_splitOnSlash (cs : List Char) :
    ((splitOnSlash cs).map nodeSubs).sum = nodeSubs cs := by
  induction cs using slash_induction with
  | base cs h => simp [splitOnSlash_no_slash h]
  | step a b ha ih =>
    rw [splitOnSlash_append, splitOnSlash_no_slash ha, nodeSubs_append_slash, ← ih]
    simp

/-- The length of a rendered body, with a slash in front of every token. -/
theorem length_render_body (node : List Char) {cs : List Char} {pss : List (List Piece)}
    (h : parseTokens (splitOnSlash cs) = some pss) :
    slashed (pss.map (render node)) + 6 * nodeSubs cs =
      cs.length + 1 + nodeSubs cs * node.length := by
  have := length_render_tokens node h
  rwa [sum_nodeSubs_splitOnSlash, slashed_splitOnSlash] at this

theorem slashed_namespaceTokens {ns : List Char} (h : isValidNamespaceChars ns = true) :
    slashed (namespaceTokensChars ns) = namespaceLength ns := by
  cases ns with
  | nil => simp [namespaceTokensChars, slashed, namespaceLength]
  | cons c rest =>
    by_cases hr : rest = []
    · have hc : c = '/' := by
        simp only [isValidNamespaceChars, isValidFullTopicNameChars, hr, Bool.or_eq_true,
          Bool.and_eq_true, beq_iff_eq, List.cons.injEq, and_true] at h
        exact h.elim id And.left
      simp [namespaceTokensChars, slashed, namespaceLength, hr, hc]
    · simp only [namespaceTokensChars, List.isEmpty_iff, hr, if_false, slashed_splitOnSlash,
        namespaceLength, List.cons.injEq, and_false, List.length_cons]

theorem slashed_append (a b : List (List Char)) : slashed (a ++ b) = slashed a + slashed b := by
  simp [slashed]

theorem slashed_pos {ts : List (List Char)} (h : ts ≠ []) : 0 < slashed ts := by
  have := length_joinSlash ts h
  omega

/-- The tokens of an expansion fill exactly the length computed from the written name. -/
theorem slashed_expandTokens {t node ns : List Char} (ht : isValidTopicNameChars t = true)
    (hs : isValidNamespaceChars ns = true) :
    slashed (expandTokens t node (namespaceTokensChars ns)) = expandedLength t node ns := by
  obtain ⟨pns, ts, hsplit, hne, -⟩ := splitName_valid ht
  have hns := slashed_namespaceTokens hs
  simp only [expandTokens, hsplit, slashed_append]
  unfold splitName at hsplit
  split at hsplit
  · cases hsplit
  · simp only [Option.some.injEq, Prod.mk.injEq] at hsplit
    obtain ⟨rfl, rfl⟩ := hsplit
    rw [if_pos rfl, hns]
    have h0 : nodeSubs ['~'] = 0 := by decide
    simp only [slashed, render, expandedLength, h0, List.map_cons, List.map_nil, List.sum_cons,
      List.sum_nil, List.append_nil, List.length_cons, List.length_nil]
    omega
  · rename_i body
    simp only [Option.map_eq_some_iff, Prod.mk.injEq] at hsplit
    obtain ⟨pss, hp, rfl, rfl⟩ := hsplit
    have hb := length_render_body node hp
    have ho : nodeSubs ('~' :: '/' :: body) = nodeSubs body := by
      rw [nodeSubs_other (by decide), nodeSubs_other (by decide)]
    simp only [if_true, hns, List.map_cons, expandedLength, ho, List.length_cons]
    simp only [slashed, List.map_cons, List.sum_cons, render, List.append_nil] at hb ⊢
    omega
  · cases hsplit
  · rename_i body
    simp only [Option.map_eq_some_iff, Prod.mk.injEq] at hsplit
    obtain ⟨pss, hp, rfl, rfl⟩ := hsplit
    have hb := length_render_body node hp
    simp only [expandedLength, nodeSubs_other (show '/' ≠ '{' by decide), List.length_cons]
    simp only [Bool.false_eq_true, if_false, slashed, List.map_nil, List.sum_nil] at hb ⊢
    omega
  · rename_i hnil h1 h2 h3 h4
    simp only [Option.map_eq_some_iff, Prod.mk.injEq] at hsplit
    obtain ⟨pss, hp, rfl, rfl⟩ := hsplit
    have hb := length_render_body node hp
    have he : expandedLength t node ns =
        namespaceLength ns + 1 + (t.length + nodeSubs t * node.length - 6 * nodeSubs t) := by
      unfold expandedLength
      split
      · exact absurd rfl (h4 _)
      · exact absurd rfl (h3 _)
      · rfl
    have hpos : 0 < slashed (pss.map (render node)) := slashed_pos (by simpa using hne)
    simp only [if_true, hns, he]
    omega

theorem length_expandChars {t node ns : List Char} (ht : isValidTopicNameChars t = true)
    (hn : isValidTokenChars node = true) (hs : isValidNamespaceChars ns = true) :
    (expandChars t node ns).length = expandedLength t node ns := by
  rw [← slashed_expandTokens ht hs, ← length_joinSlash _ (expandTokens_valid ht hn hs).1]
  rfl

/-! ## What rmw accepts -/

/-- `RMW_TOPIC_MAX_NAME_LENGTH`. -/
def topicMaxNameLength : Nat := 247

/-- `rmw_validate_full_topic_name`: the rules above, and no name longer in bytes than the
maximum. -/
def validateFullTopicName (name : String) : Bool :=
  isValidFullTopicName name && decide (name.utf8ByteSize ≤ topicMaxNameLength)

theorem utf8Size_of_isNameChar {c : Char} (h : isNameChar c = true) : c.utf8Size = 1 := by
  have hv : c.val ≤ 0x7f := by
    simp only [isNameChar, Bool.or_eq_true, beq_iff_eq] at h
    rcases h with (h | h) | rfl
    · rcases Bool.or_eq_true_iff.mp (show (c.isUpper || c.isLower) = true from h) with h | h
      · exact UInt32.le_trans (of_decide_eq_true h).2 (by decide)
      · exact UInt32.le_trans (of_decide_eq_true (Bool.and_eq_true_iff.mp h).2) (by decide)
    · exact UInt32.le_trans (of_decide_eq_true (Bool.and_eq_true_iff.mp h).2) (by decide)
    · decide
  simp [Char.utf8Size, hv]

theorem isNameChar_or_slash {ts : List (List Char)} (h : ∀ t ∈ ts, isValidTokenChars t = true) :
    ∀ c ∈ joinSlash ts, c = '/' ∨ isNameChar c = true := by
  induction ts with
  | nil => simp [joinSlash]
  | cons t ts ih =>
    have ht := List.all_eq_true.mp (all_nameChar_of_token (h t (by simp)))
    cases ts with
    | nil => exact fun c hc => .inr (ht c hc)
    | cons u us =>
      intro c hc
      have htail := ih fun x hx => h x (List.mem_cons_of_mem _ hx)
      rcases List.mem_append.mp hc with hc | hc
      · exact .inr (ht c hc)
      · rcases List.mem_cons.mp hc with rfl | hc
        · exact .inl rfl
        · exact htail c hc

theorem utf8ByteSize_of_ascii {cs : List Char} (h : ∀ c ∈ cs, c.utf8Size = 1) :
    (String.ofList cs).utf8ByteSize = cs.length := by
  induction cs with
  | nil => rfl
  | cons c cs ih =>
    rw [String.ofList_cons, String.utf8ByteSize_append, String.utf8ByteSize_singleton,
      h c (by simp), ih fun d hd => h d (List.mem_cons_of_mem _ hd), List.length_cons, Nat.add_comm]

/-- The bytes of an expansion, which are its characters since all of them are ASCII. -/
theorem utf8ByteSize_expand (t : TopicName) (node : NodeName) (ns : Namespace) :
    (t.expand node ns).toString.utf8ByteSize =
      expandedLength t.toString.toList node.toString.toList ns.toString.toList := by
  have hall := (expandTokens_valid t.isValid node.isValid ns.isValid).2
  rw [← length_expandChars t.isValid node.isValid ns.isValid]
  apply utf8ByteSize_of_ascii
  intro c hc
  rcases List.mem_cons.mp hc with rfl | hc
  · decide
  · rcases isNameChar_or_slash hall c hc with rfl | hc
    · decide
    · exact utf8Size_of_isNameChar hc

/-- An expansion is accepted exactly when the length its written form works out to is within the
maximum. -/
theorem expand_accepted_iff (t : TopicName) (node : NodeName) (ns : Namespace) :
    validateFullTopicName (t.expand node ns).toString = true ↔
      expandedLength t.toString.toList node.toString.toList ns.toString.toList ≤
        topicMaxNameLength := by
  rw [← utf8ByteSize_expand, validateFullTopicName, (t.expand node ns).isValid]
  simp

theorem parseToken_letters (n : Nat) :
    parseToken (List.replicate n 'a') = some (List.replicate n (.lit 'a' (by decide))) := by
  induction n with
  | zero => rfl
  | succ n ih => simp [List.replicate_succ, parseToken, ih, show isNameChar 'a' = true by decide]

theorem splitName_letters (n : Nat) : splitName (List.replicate (n + 1) 'a') =
    some (true, [List.replicate (n + 1) (.lit 'a' (by decide))]) := by
  have hs : splitOnSlash (List.replicate (n + 1) 'a') = [List.replicate (n + 1) 'a'] :=
    splitOnSlash_no_slash fun h => absurd (List.eq_of_mem_replicate h) (by decide)
  have hp := parseToken_letters (n + 1)
  rw [List.replicate_succ] at hs hp ⊢
  simp [splitName, hs, parseTokens, hp]

/-- The relative name of `n + 1` letters. -/
def letters (n : Nat) : TopicName where
  toString := String.ofList (List.replicate (n + 1) 'a')
  isValid := by
    rw [isValidTopicName, String.toList_ofList, isValidTopicNameChars, splitName_letters]
    simp [List.replicate_succ, headPieceOk]

theorem expandedLength_letters (n : Nat) (node : List Char) :
    expandedLength (List.replicate (n + 1) 'a') node ['/'] = n + 2 := by
  have h0 : nodeSubs (List.replicate n 'a') = 0 := by
    induction n with
    | zero => rfl
    | succ n ih => rw [List.replicate_succ, nodeSubs_other (by decide), ih]
  simp [List.replicate_succ, expandedLength, namespaceLength, nodeSubs_other, h0]
  omega

/-- Of 247 letters the expansion is one byte too long, the slash in front of it included. -/
theorem letters_refused :
    validateFullTopicName ((letters 246).expand ⟨"n", by decide⟩ ⟨"/", by decide⟩).toString =
      false := by
  have hl := expandedLength_letters 246 "n".toList
  rw [validateFullTopicName, utf8ByteSize_expand, letters, String.toList_ofList,
    show "/".toList = ['/'] from rfl, hl]
  exact Bool.and_eq_false_iff.mpr (.inr (by decide))

end Names

import Inlay.Proofs.Html.Comments
import Inlay.Proofs.Html.Texts
import Inlay.Proofs.Text.Offsets

/-!
Reading tokens by offsets in bytes. A loop goes through the markup from offset
to offset. A turn searches the bytes that are left and slices the markup at the
offsets that it finds, which is possible only where a character starts. The
slices are always possible, each turn moves on by whole characters, and the loop
ends with the tokens that are read character by character.
-/

namespace Inlay.Html

open Text

/-! ### A turn of the loop

Each part answers its tokens and the number of bytes that they cover, or none
if a slice would cut a character. -/

def endOffset? : Option Char → List (Nat × Char) → Option Nat
  | _, [] => none
  | quote, (offset, c) :: rest =>
    if quote = none ∧ c = '>' then some (offset + 1) else endOffset? (quoteBehind quote c) rest

def nextOpening? (t : Text) : List (Nat × Char) → Option Nat
  | [] => some (byteSize t)
  | (offset, c) :: more =>
    if c = '<' then do
      let (_, here) ← cutAt? offset t
      if opens here || startsWith "<!--".toList here then return offset
      nextOpening? t more
    else nextOpening? t more

def commentTurn? (t : Text) : Option (List Token × Nat) := do
  let (_, inside) ← cutAt? 4 t
  let size := match Utf8.indexOf? (Utf8.encode "-->".toList) (Utf8.encode inside) with
    | some offset => offset + 4 + 3
    | none => byteSize t
  let (raw, _) ← cutAt? size t
  return ([.comment raw], size)

def textTurn? (t : Text) : Option (List Token × Nat) := do
  let size ← nextOpening? t ((offsets 0 t).drop 1)
  let (raw, _) ← cutAt? size t
  return ([.text raw], size)

def nameOf? (raw : Text) : Option Text := do
  let (_, t) ← cutAt? (if isClosing raw then 2 else 1) raw
  let size := ((offsets 0 t).find? fun place => !isNamePart place.2).elim (byteSize t) Prod.fst
  let (name, _) ← cutAt? size t
  return lowered name

def contentTurn? (html name : Text) (offset : Nat) : Option (List Token × Nat) := do
  let (_, left) ← cutAt? offset html
  let closing := Utf8.indexOf? (Utf8.encode ('<' :: '/' :: name)) (Utf8.encode (lowered left))
  let size := closing.getD (byteSize html - offset)
  if size = 0 then return ([], 0)
  let (content, _) ← cutAt? size left
  return ([.verbatim content], size)

def tagTurn? (html : Text) (offset : Nat) (rest : Text) (size : Nat) :
    Option (List Token × Nat) := do
  let (raw, _) ← cutAt? size rest
  if startsWith ['<', '!'] raw || startsWith ['<', '?'] raw then return ([.verbatim raw], size)
  let name ← nameOf? raw
  if !isClosing raw && !endsWith ['/', '>'] raw && verbatimElements.contains name then
    let (content, more) ← contentTurn? html name (offset + size)
    return (.tag raw :: content, size + more)
  return ([.tag raw], size)

/-- The tokens that start at an offset, and the offset behind them. -/
def turn? (html : Text) (offset : Nat) : Option (List Token × Nat) := do
  let (_, rest) ← cutAt? offset html
  let (tokens, size) ←
    if startsWith "<!--".toList rest then commentTurn? rest
    else match if opens rest then endOffset? none ((offsets 0 rest).drop 1) else none with
      | some size => tagTurn? html offset rest size
      | none => textTurn? rest
  return (tokens, offset + size)

/-- The loop from an offset on, with all the tokens that it reads. -/
inductive Reads (html : Text) : Nat → List Token → Prop
  | done {offset : Nat} (h : byteSize html ≤ offset) : Reads html offset []
  | turn {offset next : Nat} {tokens more : List Token} (hinside : offset < byteSize html)
      (h : turn? html offset = some (tokens, next)) (hmore : Reads html next more) :
      Reads html offset (tokens ++ more)

theorem Reads.eq {html : Text} {offset : Nat} {tokens others : List Token}
    (h : Reads html offset tokens) (h' : Reads html offset others) : tokens = others := by
  induction h generalizing others with
  | done hend =>
      cases h' with
      | done => rfl
      | turn hinside => omega
  | turn hinside hturn _ ih =>
      cases h' with
      | done hend => omega
      | turn _ hturn' hmore =>
          rw [hturn] at hturn'
          obtain ⟨rfl, rfl⟩ := Prod.mk.inj (Option.some.inj hturn')
          rw [ih hmore]

/-! ### The searches find whole characters -/

theorem endOffset?_offsets (quote : Option Char) (offset : Nat) (t : Text) :
    endOffset? quote (offsets offset t) =
      (tagEnd? quote t).map fun n => offset + byteSize (t.take n) := by
  induction t generalizing quote offset with
  | nil => cases quote <;> rfl
  | cons c t ih =>
      rw [offsets, endOffset?]
      by_cases hend : quote = none ∧ c = '>'
      · obtain ⟨rfl, rfl⟩ := hend
        rfl
      · have hstep : tagEnd? quote (c :: t) = (tagEnd? (quoteBehind quote c) t).map (· + 1) := by
          cases quote with
          | some q => rfl
          | none =>
              rw [tagEnd?, if_neg fun hc => hend ⟨rfl, hc⟩]
              rfl
        rw [if_neg hend, ih, hstep, Option.map_map]
        congr 1
        funext n
        simp [Nat.add_assoc]

theorem opens_of_comment {t : Text} (h : startsWith "<!--".toList t = true) : opens t = true := by
  obtain ⟨rest, rfl⟩ := startsWith_iff.mp h
  rfl

theorem nextOpening?_offsets (before t : Text) :
    nextOpening? (before ++ t) (offsets (byteSize before) t) =
      some (byteSize before + byteSize (t.take (textSize t))) := by
  induction t generalizing before with
  | nil => simp [offsets, nextOpening?, textSize]
  | cons c t ih =>
      have hlater := ih (before ++ [c])
      simp only [byteSize_append, byteSize_cons, byteSize_nil, Nat.add_zero, List.append_assoc,
        List.cons_append, List.nil_append] at hlater
      rw [offsets, nextOpening?]
      cases hopens : opens (c :: t) with
      | true =>
          obtain rfl : c = '<' := Option.some.inj (head?_of_opens hopens)
          simp [hopens, textSize]
      | false =>
          have hsize : byteSize before + byteSize ((c :: t).take (textSize (c :: t))) =
              byteSize before + c.utf8Size + byteSize (t.take (textSize t)) := by
            simp [textSize, hopens, Nat.add_assoc]
          have hcomment : startsWith "<!--".toList (c :: t) = false :=
            Bool.eq_false_iff.mpr fun h => Bool.eq_false_iff.mp hopens (opens_of_comment h)
          rw [hsize, ← hlater]
          split
          · simp only [cutAt?_append, hopens, hcomment, Option.bind_eq_bind, Option.bind_some,
              Bool.or_self, Bool.false_eq_true, if_false]
          · rfl

theorem find?_offsets (p : Char → Bool) (offset : Nat) (t : Text) :
    ((offsets offset t).find? fun place => !p place.2).elim (offset + byteSize t) Prod.fst =
      offset + byteSize (t.takeWhile p) := by
  induction t generalizing offset with
  | nil => rfl
  | cons c t ih =>
      rw [offsets, List.find?_cons]
      cases hc : p c with
      | true =>
          have hrest := ih (offset + c.utf8Size)
          simp only [Nat.add_assoc] at hrest
          simp [hc, hrest]
      | false => simp [hc]

theorem utf8Size_toLower (c : Char) : c.toLower.utf8Size = c.utf8Size := by
  unfold Char.toLower
  split
  · rename_i h
    have hupper : c.val ≤ 127 := UInt32.le_trans h.2 (by decide)
    have hlower : c.val + ('a'.val - 'A'.val) ≤ 127 := by
      have hle : c.val.toNat ≤ 90 := UInt32.le_iff_toNat_le.mp h.2
      have hsum : (c.val.toNat + 32) % 2 ^ 32 ≤ 127 := by omega
      rw [UInt32.le_iff_toNat_le, UInt32.toNat_add]
      exact hsum
    rw [Char.utf8Size_eq_one_iff.mpr hlower, Char.utf8Size_eq_one_iff.mpr hupper]
  · rfl

theorem byteSize_lowered (t : Text) : byteSize (lowered t) = byteSize t := by
  induction t with
  | nil => rfl
  | cons c t ih =>
      rw [byteSize_cons, ← ih, ← utf8Size_toLower]
      rfl

/-! ### The parts of a turn -/

theorem commentTurn?_eq {t : Text} (h : startsWith "<!--".toList t = true) :
    commentTurn? t =
      some ([.comment (t.take (commentSize t))], byteSize (t.take (commentSize t))) := by
  obtain ⟨inside, rfl⟩ := startsWith_iff.mp h
  have hopening : cutAt? 4 ("<!--".toList ++ inside) = some ("<!--".toList, inside) :=
    cutAt?_eq_some_iff.mpr ⟨rfl, by decide⟩
  have hinside : ("<!--".toList ++ inside).drop 4 = inside := rfl
  -- the bytes that a turn counts are those of the comment
  have hsize : (match Utf8.indexOf? (Utf8.encode "-->".toList) (Utf8.encode inside) with
      | some offset => offset + 4 + 3
      | none => byteSize ("<!--".toList ++ inside)) =
      byteSize (("<!--".toList ++ inside).take (commentSize ("<!--".toList ++ inside))) := by
    rw [indexOf?_encode, commentSize, hinside]
    cases hfound : indexOf? "-->".toList inside with
    | none => simp
    | some n =>
        obtain ⟨before, rest, rfl, rfl⟩ := exists_of_indexOf? hfound
        have hwhole : "<!--".toList ++ (before ++ ("-->".toList ++ rest)) =
            ("<!--".toList ++ (before ++ "-->".toList)) ++ rest := by
          simp only [List.append_assoc]
        have hlength : ("<!--".toList ++ (before ++ "-->".toList)).length = before.length + 7 := by
          simp only [List.length_append, String.length_toList]
          exact Nat.add_left_comm 4 before.length 3
        rw [hwhole, List.take_left' hlength]
        simp only [Option.map_some, List.take_left, byteSize_append]
        rw [Nat.add_assoc, Nat.add_left_comm]
        rfl
  simp only [commentTurn?, hopening, Option.bind_eq_bind, Option.bind_some, hsize, cutAt?_take]
  rfl

theorem textTurn?_eq {t : Text} (ht : t ≠ []) :
    textTurn? t = some ([.text (t.take (textSize (t.drop 1) + 1))],
      byteSize (t.take (textSize (t.drop 1) + 1))) := by
  obtain ⟨c, t, rfl⟩ := List.exists_cons_of_ne_nil ht
  have hstop : nextOpening? (c :: t) ((offsets 0 (c :: t)).drop 1) =
      some (byteSize ((c :: t).take (textSize t + 1))) := by
    have hbehind := nextOpening?_offsets [c] t
    simpa [offsets] using hbehind
  simp only [textTurn?, hstop, Option.bind_eq_bind, Option.bind_some, List.drop_succ_cons,
    List.drop_zero, cutAt?_take]
  rfl

/-- A name is read behind one or two characters of a byte each. -/
theorem nameOf?_eq {raw : Text} (h : raw.head? = some '<') : nameOf? raw = some (tagName raw) := by
  obtain ⟨body, rfl⟩ := List.head?_eq_some_iff.mp h
  have hopening : cutAt? (if isClosing ('<' :: body) then 2 else 1) ('<' :: body) =
      some (opening ('<' :: body), ('<' :: body).drop (opening ('<' :: body)).length) := by
    rw [isClosing, opening]
    split
    · rename_i hclosing
      obtain ⟨rest, hrest⟩ := startsWith_iff.mp hclosing
      rw [← hrest]
      exact cutAt?_eq_some_iff.mpr ⟨rfl, rfl⟩
    · exact cutAt?_eq_some_iff.mpr ⟨rfl, rfl⟩
  have hsize := find?_offsets isNamePart 0 (('<' :: body).drop (opening ('<' :: body)).length)
  rw [Nat.zero_add, Nat.zero_add] at hsize
  have hname := cutAt?_append (writtenName ('<' :: body))
    ((('<' :: body).drop (opening ('<' :: body)).length).dropWhile isNamePart)
  rw [writtenName, List.takeWhile_append_dropWhile] at hname
  simp only [nameOf?, hopening, Option.bind_eq_bind, Option.bind_some, hsize, hname]
  rfl

theorem contentTurn?_eq (before left name : Text) :
    contentTurn? (before ++ left) name (byteSize before) =
      some (copiedTokens (left.take (contentSize name left)),
        byteSize (left.take (contentSize name left))) := by
  have hsize : (Utf8.indexOf? (Utf8.encode ('<' :: '/' :: name))
      (Utf8.encode (lowered left))).getD (byteSize (before ++ left) - byteSize before) =
      byteSize (left.take (contentSize name left)) := by
    rw [indexOf?_encode, contentSize]
    cases indexOf? ('<' :: '/' :: name) (lowered left) with
    | none => simp
    | some n =>
        have htake : (lowered left).take n = lowered (left.take n) := List.map_take.symm
        simp [htake, byteSize_lowered]
  simp only [contentTurn?, cutAt?_append, Option.bind_eq_bind, Option.bind_some, hsize,
    cutAt?_take]
  by_cases hnone : left.take (contentSize name left) = []
  · simp [hnone, copiedTokens]
  · have hpos := byteSize_pos hnone
    rw [if_neg (Nat.ne_of_gt hpos), copiedTokens, if_neg hnone]
    rfl

theorem tagSize?_eq_offset (t : Text) :
    (if opens t then endOffset? none ((offsets 0 t).drop 1) else none) =
      (tagSize? t).map fun n => byteSize (t.take n) := by
  rw [tagSize?]
  split
  · rename_i hopens
    obtain ⟨t, rfl⟩ := List.head?_eq_some_iff.mp (head?_of_opens hopens)
    have hend := endOffset?_offsets none 0 ('<' :: t)
    simp only [Nat.zero_add] at hend
    rw [← hend]
    rfl
  · rfl

theorem tagTurn?_eq (before : Text) {rest : Text} {n : Nat}
    (hcomment : startsWith "<!--".toList rest = false) (hsize : tagSize? rest = some n) :
    tagTurn? (before ++ rest) (byteSize before) rest (byteSize (rest.take n)) =
      some ((front rest).1, byteSize ((front rest).1.flatMap Token.raw)) := by
  obtain ⟨hopens, hend⟩ := tagSize?_eq_some_iff.mp hsize
  rw [front_of_tag hcomment hsize]
  simp only [tagTurn?, cutAt?_take, Option.bind_eq_bind, Option.bind_some]
  split
  · simp [Token.raw]
  · have hhead : (rest.take n).head? = some '<' := by
      rw [List.head?_take, if_neg (Nat.ne_of_gt (tagEnd?_pos hend)), head?_of_opens hopens]
    have hcontent := contentTurn?_eq (before ++ rest.take n) (rest.drop n) (tagName (rest.take n))
    rw [List.append_assoc, List.take_append_drop, byteSize_append] at hcontent
    have hverbatim : (!isClosing (rest.take n) && !endsWith ['/', '>'] (rest.take n) &&
        verbatimElements.contains (tagName (rest.take n))) = hasVerbatimContent (rest.take n) := rfl
    simp only [nameOf?_eq hhead, Option.bind_some, hverbatim]
    split
    · rename_i hcopies
      simp [hcontent, copied, hcopies, flatMap_raw_copiedTokens, Token.raw]
    · rename_i hcopies
      simp [copied, hcopies, copiedTokens, Token.raw]

/-- At the start of a character a turn of the loop is a step by characters: all
of its slices are possible, and it ends behind the characters that it covers. -/
theorem turn?_eq (before : Text) {rest : Text} (hrest : rest ≠ []) :
    turn? (before ++ rest) (byteSize before) =
      some ((front rest).1, byteSize (before ++ (front rest).1.flatMap Token.raw)) := by
  rw [byteSize_append]
  simp only [turn?, cutAt?_append, Option.bind_eq_bind, Option.bind_some, tagSize?_eq_offset]
  cases hcomment : startsWith "<!--".toList rest with
  | true => simp [commentTurn?_eq hcomment, front_of_comment hcomment, Token.raw]
  | false =>
      cases hsize : tagSize? rest with
      | none => simp [textTurn?_eq hrest, front_of_no_tag hcomment hsize, Token.raw]
      | some n => simp [tagTurn?_eq before hcomment hsize]

/-! ### The loop -/

theorem reads_tokenize (before rest : Text) :
    Reads (before ++ rest) (byteSize before) (tokenize rest) := by
  revert before
  refine tokenize_steps (motive := fun t tokens =>
    ∀ before, Reads (before ++ t) (byteSize before) tokens) ?_ ?_ rest
  · intro before
    exact .done (by simp)
  · intro t ht ih before
    -- the next turn starts behind what this one covers
    have hcovered := flatMap_raw_front t
    have hmore := ih (before ++ (front t).1.flatMap Token.raw)
    rw [hcovered, List.append_assoc, List.take_append_drop, ← hcovered] at hmore
    refine .turn ?_ (turn?_eq before ht) hmore
    have hpos := byteSize_pos ht
    rw [byteSize_append]
    omega

/-- However broken the markup is, the loop ends, and it loses nothing. A turn at
the start of a character never cuts one: it covers one character at least, ends
at the start of the next one, and answers tokens that make up what it covers. So
the loop reaches the end of the markup, with one outcome only. No token is empty,
and side by side they are the markup. The second of two texts side by side starts
with the opening of a tag that has no end. Cleaning keeps all but the comments
that it is told to drop, and leaves no two texts side by side. -/
theorem tokenize_ends_and_loses_nothing (html : Text) :
    (∀ before rest, html = before ++ rest → rest ≠ [] → ∃ covered left tokens,
      rest = covered ++ left ∧ covered ≠ [] ∧ tokens ≠ [] ∧
      turn? html (byteSize before) = some (tokens, byteSize (before ++ covered)) ∧
      tokens.flatMap Token.raw = covered) ∧
    (∀ tokens, Reads html 0 tokens ↔ tokens = tokenize html) ∧
    (tokenize html).flatMap Token.raw = html ∧
    (∀ token ∈ tokenize html, token.raw ≠ []) ∧
    (∀ before a b behind, tokenize html = before ++ .text a :: .text b :: behind →
      opens b = true ∧ NeverEnds (b ++ behind.flatMap Token.raw)) ∧
    ∀ s : Settings,
      (s.clean (tokenize html)).flatMap Token.raw =
        (if s.dropComments then withoutComments html else html) ∧
      ∀ before a b behind, s.clean (tokenize html) ≠ before ++ .text a :: .text b :: behind := by
  have hreads : Reads html 0 (tokenize html) := reads_tokenize [] html
  refine ⟨?_, fun tokens => ⟨fun h => h.eq hreads, fun h => h ▸ hreads⟩,
    flatMap_raw_tokenize html, raw_ne_nil_of_mem_tokenize html, fun _ _ _ _ => opens_of_texts,
    fun s => ⟨s.flatMap_raw_clean_tokenize html, s.clean_ne (tokenize html)⟩⟩
  rintro before rest rfl hrest
  refine ⟨_, rest.drop (front rest).2, _, ?_, flatMap_raw_front_ne_nil hrest,
    front_ne_nil hrest, turn?_eq before hrest, rfl⟩
  rw [flatMap_raw_front, List.take_append_drop]

/-- A closing tag in another case, and two tags in a row that have no end, the
second for a quote that is not closed, among characters of two bytes. -/
theorem tokenize_ends_and_loses_nothing_unclosed :
    tokenize "é<pre>ü</PRE><a ü<b title='>".toList =
      [.text "é".toList, .tag "<pre>".toList, .verbatim "ü".toList, .tag "</PRE>".toList] ++
        .text "<a ü".toList :: .text "<b title='>".toList :: [] ∧
    Reads "é<pre>ü</PRE><a ü<b title='>".toList 0
      [.text "é".toList, .tag "<pre>".toList, .verbatim "ü".toList, .tag "</PRE>".toList,
        .text "<a ü".toList, .text "<b title='>".toList] ∧
    turn? "é<pre>ü</PRE><a ü<b title='>".toList 2 =
      some ([.tag "<pre>".toList, .verbatim "ü".toList], 9) ∧
    turn? "é<pre>ü</PRE><a ü<b title='>".toList 1 = none ∧
    opens "<b title='>".toList = true ∧ NeverEnds ("<b title='>".toList ++ []) := by
  have htokens : tokenize "é<pre>ü</PRE><a ü<b title='>".toList =
      [.text "é".toList, .tag "<pre>".toList, .verbatim "ü".toList, .tag "</PRE>".toList] ++
        .text "<a ü".toList :: .text "<b title='>".toList :: [] := by
    decide +kernel
  obtain ⟨-, hreads, -, -, htexts, -⟩ :=
    tokenize_ends_and_loses_nothing "é<pre>ü</PRE><a ü<b title='>".toList
  exact ⟨htokens, (hreads _).mpr htokens.symm, by decide +kernel, by decide +kernel,
    htexts _ _ _ _ htokens⟩

end Inlay.Html

import Libdap.Foundation.Rewriting

/-! # Text in XML

`id2xml` puts an entity in the place of each character that XML does not allow, in one pass. `xml2id`
takes the entities back one kind after the other, and looks again at what it has put in their place.
-/

namespace Libdap.Escaping

open Rewriting Rewriter

abbrev Text := List Char

/-- The characters that have an entity. For another one, which `id2xml` does not ask for by default,
there is an `InternalErr`. -/
def entity : Char → Text
  | '>' => "&gt;".toList
  | '<' => "&lt;".toList
  | '&' => "&amp;".toList
  | '\'' => "&apos;".toList
  | '"' => "&quot;".toList
  | _ => []

/-- The default of `id2xml`. -/
def not_allowed : List Char := "><&'\"".toList

theorem entity_allowed : ∀ c, decide (c ∈ not_allowed) = true → ∀ d ∈ (entity c).drop 1, decide (d ∈ not_allowed) = false := by
  intro c special d mem
  have all : (not_allowed.all fun c => ((entity c).drop 1).all fun d => !decide (d ∈ not_allowed)) = true := by decide
  rw [List.all_eq_true] at all
  have clean := List.all_eq_true.mp (all c (of_decide_eq_true special)) d mem
  exact Bool.not_eq_true' _ ▸ clean

/-- The scan goes on behind the ampersand. -/
def id2xmlPass : Rewriter Char := each (fun c => decide (c ∈ not_allowed)) entity 1 entity_allowed

def id2xml (s : Text) : Text := id2xmlPass.rewrite s

/-- One of the loops of `xml2id`. The place is not moved on behind the character that is put there. -/
def decode (word : Text) (c : Char) (shorter : [c].length < word.length) : Rewriter Char := replacing word [c] 0 shorter

def gtPass : Rewriter Char := decode "&gt;".toList '>' (by decide)

def ltPass : Rewriter Char := decode "&lt;".toList '<' (by decide)

def ampPass : Rewriter Char := decode "&amp;".toList '&' (by decide)

def aposPass : Rewriter Char := decode "&apos;".toList '\'' (by decide)

def quotPass : Rewriter Char := decode "&quot;".toList '"' (by decide)

def xml2id (s : Text) : Text :=
  quotPass.rewrite (aposPass.rewrite (ampPass.rewrite (ltPass.rewrite (gtPass.rewrite s))))

example : id2xml "a<'b'>".toList = "a&lt;&apos;b&apos;&gt;".toList := by decide +kernel

/-! ## One kind of entity after the other -/

/-- A text in which some characters are still entities. -/
def encode (kinds : List Char) (s : Text) : Text := s.flatMap fun c => if c ∈ kinds then entity c else [c]

theorem encode_cons (kinds : List Char) (c : Char) (cs : Text) :
    encode kinds (c :: cs) = (if c ∈ kinds then entity c else [c]) ++ encode kinds cs := List.flatMap_cons

theorem encode_none (s : Text) : encode [] s = s := by
  induction s with
  | nil => rfl
  | cons c cs ih => rw [encode_cons, if_neg List.not_mem_nil, ih, List.singleton_append]

theorem id2xml_eq (s : Text) : id2xml s = encode not_allowed s := by
  have inside : ∀ c, decide (c ∈ not_allowed) = true → 1 ≤ (entity c).length := by
    intro c special
    have all : (not_allowed.all fun c => decide (1 ≤ (entity c).length)) = true := by decide
    exact of_decide_eq_true (List.all_eq_true.mp all c (of_decide_eq_true special))
  have whole := @rewrite_each _ _ _ _ entity_allowed inside s
  simp only [decide_eq_true_eq] at whole
  exact whole

/-- No entity starts with another one. -/
theorem entity_apart {c d : Char} (special : c ∈ not_allowed) (special' : d ∈ not_allowed) (other : d ≠ c) (s : Text) :
    ¬entity c <+: entity d ++ s := by
  have all : (not_allowed.all fun c => not_allowed.all fun d =>
      d == c || !((entity c).isPrefixOf (entity d) || (entity d).isPrefixOf (entity c))) = true := by decide
  have apart := List.all_eq_true.mp (List.all_eq_true.mp all c special) d special'
  simp only [Bool.or_eq_true, beq_iff_eq, other, false_or, Bool.not_eq_true', Bool.or_eq_false_iff] at apart
  intro starts
  rcases List.prefix_or_prefix_of_prefix starts (List.prefix_append (entity d) s) with first | first
  · exact Bool.false_ne_true (apart.1.symm.trans (List.isPrefixOf_iff_prefix.mpr first))
  · exact Bool.false_ne_true (apart.2.symm.trans (List.isPrefixOf_iff_prefix.mpr first))

/-- An entity is an ampersand and characters that need none. -/
theorem entity_cases {c : Char} (special : c ∈ not_allowed) :
    ∃ name : Text, entity c = '&' :: name ∧ ∀ d ∈ name, d ∉ not_allowed := by
  have all : (not_allowed.all fun c => (entity c).head? == some '&' && (entity c).tail.all fun d => !decide (d ∈ not_allowed)) =
      true := by decide
  have parts := List.all_eq_true.mp all c special
  rw [Bool.and_eq_true, beq_iff_eq, List.all_eq_true] at parts
  obtain ⟨name, whole⟩ := List.head?_eq_some_iff.mp parts.1
  refine ⟨name, whole, fun d mem => ?_⟩
  rw [whole] at parts
  exact of_decide_eq_false (Bool.not_eq_true' _ ▸ parts.2 d mem)

section

variable {c : Char} {kinds : List Char} {shorter : [c].length < (entity c).length}

theorem amp_of_starts (special : c ∈ not_allowed) {d : Char} {cs : Text} (starts : entity c <+: d :: cs) : d = '&' := by
  obtain ⟨name, whole, -⟩ := entity_cases special
  rw [whole, List.cons_prefix_cons] at starts
  exact starts.1.symm

/-- A loop passes over another entity. -/
theorem decode_entity (special : c ∈ not_allowed) {d : Char} (special' : d ∈ not_allowed) (other : d ≠ c) (s : Text) :
    (decode (entity c) c shorter).rewrite (entity d ++ s) = entity d ++ (decode (entity c) c shorter).rewrite s := by
  obtain ⟨name, whole, plain⟩ := entity_cases special'
  have passed : ∀ name : Text, (∀ e ∈ name, e ∉ not_allowed) →
      (decode (entity c) c shorter).rewrite (name ++ s) = name ++ (decode (entity c) c shorter).rewrite s := by
    intro name plain
    induction name with
    | nil => rfl
    | cons e name ih =>
        obtain ⟨first, others⟩ := List.forall_mem_cons.mp plain
        have miss : ¬entity c <+: e :: (name ++ s) := by
          intro starts
          rw [amp_of_starts special starts] at first
          exact first (by decide)
        rw [List.cons_append, decode, rewrite_other miss]
        exact congrArg (e :: ·) (ih others)
  have miss := entity_apart special special' other s
  rw [whole, List.cons_append] at miss ⊢
  rw [decode, rewrite_other miss]
  exact congrArg ('&' :: ·) (passed name plain)

/-- While every ampersand is the start of an entity, one kind of them is taken back. -/
theorem decode_encode (special : c ∈ not_allowed) (sub : kinds ⊆ not_allowed) (absent : c ∉ kinds) (amp : '&' ∈ kinds)
    (s : Text) : (decode (entity c) c shorter).rewrite (encode (c :: kinds) s) = encode kinds s := by
  have plain : c ≠ '&' := fun same => absent (same ▸ amp)
  induction s with
  | nil => exact rewrite_nil _
  | cons d cs ih =>
      rw [encode_cons, encode_cons]
      by_cases here : d = c
      · subst here
        have miss : ¬entity d <+: d :: encode (d :: kinds) cs := fun starts => plain (amp_of_starts special starts)
        rw [if_pos List.mem_cons_self, if_neg absent, decode, rewrite_word]
        exact (rewrite_other miss).trans (congrArg (d :: ·) ih)
      · by_cases kind : d ∈ kinds
        · rw [if_pos (List.mem_cons_of_mem c kind), if_pos kind, decode_entity special (sub kind) here, ih]
        · have miss : ¬entity c <+: d :: encode (c :: kinds) cs := fun starts =>
            kind (amp_of_starts special starts ▸ amp)
          rw [if_neg (fun mem => (List.mem_cons.mp mem).elim here kind), if_neg kind, List.singleton_append,
            List.singleton_append, decode, rewrite_other miss]
          exact congrArg (d :: ·) ih

/-- What needs no entity is found in the encoded text where it is in the text. -/
theorem prefix_encode_iff (sub : kinds ⊆ not_allowed) {name : Text} (plain : ∀ d ∈ name, d ∉ not_allowed) (s : Text) :
    name <+: encode kinds s ↔ name <+: s := by
  induction name generalizing s with
  | nil => exact iff_of_true List.nil_prefix List.nil_prefix
  | cons e name ih =>
      obtain ⟨first, others⟩ := List.forall_mem_cons.mp plain
      cases s with
      | nil => exact Iff.rfl
      | cons d cs =>
          rw [encode_cons]
          by_cases kind : d ∈ kinds
          · obtain ⟨name', whole, -⟩ := entity_cases (sub kind)
            rw [if_pos kind, whole, List.cons_append, List.cons_prefix_cons, List.cons_prefix_cons]
            refine iff_of_false (fun both => first ?_) fun both => first (both.1 ▸ sub kind)
            rw [both.1]
            decide
          · rw [if_neg kind, List.singleton_append, List.cons_prefix_cons, List.cons_prefix_cons, ih others]

/-- What is left of the encoded text after the characters that need no entity. -/
theorem encode_append (s t : Text) : encode kinds (s ++ t) = encode kinds s ++ encode kinds t := List.flatMap_append

theorem encode_plain {s : Text} (plain : ∀ d ∈ s, d ∉ kinds) : encode kinds s = s := by
  induction s with
  | nil => rfl
  | cons d cs ih =>
      obtain ⟨first, others⟩ := List.forall_mem_cons.mp plain
      rw [encode_cons, if_neg first, ih others, List.singleton_append]

/-- When an ampersand may stand for itself, entities of the text itself are taken back too. -/
theorem decode_encode_raw (special : c ∈ not_allowed) (sub : kinds ⊆ not_allowed) (absent : c ∉ kinds) (raw : '&' ∉ kinds)
    (s : Text) : (decode (entity c) c shorter).rewrite (encode (c :: kinds) s) =
      encode kinds ((decode (entity c) c shorter).rewrite s) := by
  obtain ⟨name, whole, plain⟩ := entity_cases special
  have sub' : c :: kinds ⊆ not_allowed := List.cons_subset.mpr ⟨special, sub⟩
  have name_self (t : Text) : encode (c :: kinds) (name ++ t) = name ++ encode (c :: kinds) t := by
    rw [encode_append, encode_plain fun d mem among => plain d mem (sub' among)]
  -- the character that was put there is looked at again, so that the text is one character longer than its rest
  have again (t : Text) : (decode (entity c) c shorter).rewrite (encode (c :: kinds) (c :: t)) =
      (decode (entity c) c shorter).rewrite (c :: encode (c :: kinds) t) := by
    rw [encode_cons, if_pos List.mem_cons_self, decode, rewrite_word]
    rfl
  induction length : s.length using Nat.strongRecOn generalizing s with
  | ind n ih =>
      cases s with
      | nil => exact (rewrite_nil _).trans (congrArg (encode kinds) (rewrite_nil _)).symm
      | cons d cs =>
          by_cases hit : entity c <+: d :: cs
          · obtain ⟨t, same⟩ := hit
            have less := congrArg List.length same
            rw [List.length_append] at less
            rw [List.length_singleton] at shorter
            have ih := ih (c :: t).length (by rw [List.length_cons]; omega) (c :: t) rfl
            have taken : (decode (entity c) c shorter).rewrite (entity c ++ t) =
                (decode (entity c) c shorter).rewrite (c :: t) := rewrite_word t
            have fold (x : Text) : '&' :: (name ++ x) = entity c ++ x := by
              rw [whole]
              rfl
            have encoded : (decode (entity c) c shorter).rewrite (encode (c :: kinds) (entity c ++ t)) =
                (decode (entity c) c shorter).rewrite (c :: encode (c :: kinds) t) := by
              by_cases amp : '&' = c
              · have text : encode (c :: kinds) (entity c ++ t) = entity c ++ ('&' :: (name ++ encode (c :: kinds) t)).tail := by
                  rw [← fold, encode_cons, if_pos (amp ▸ List.mem_cons_self), name_self, amp]
                  rfl
                have text' : c :: ('&' :: (name ++ encode (c :: kinds) t)).tail = entity c ++ encode (c :: kinds) t := by
                  rw [← fold, amp]
                  rfl
                rw [text, decode, rewrite_word]
                change (replacing (entity c) [c] 0 _).rewrite (c :: ('&' :: (name ++ encode (c :: kinds) t)).tail) = _
                rw [text', rewrite_word]
                rfl
              · have text : encode (c :: kinds) (entity c ++ t) = entity c ++ encode (c :: kinds) t := by
                  rw [← fold, encode_cons, if_neg fun mem => (List.mem_cons.mp mem).elim amp raw, name_self, ← fold,
                    List.singleton_append]
                rw [text, decode, rewrite_word]
                rfl
            rw [← same, encoded, taken, ← again, ih]
          · have ih := ih cs.length (by rw [← length]; exact Nat.lt_succ_self _) cs rfl
            have later : (decode (entity c) c shorter).rewrite (d :: cs) =
                d :: (decode (entity c) c shorter).rewrite cs := rewrite_other hit
            have miss : ¬entity c <+: d :: encode (c :: kinds) cs := by
              intro starts
              have amp := amp_of_starts special starts
              subst amp
              rw [whole, List.cons_prefix_cons, prefix_encode_iff sub' plain] at starts
              rw [whole, List.cons_prefix_cons] at hit
              exact hit starts
            rw [later, encode_cons kinds]
            by_cases here : d = c
            · subst here
              rw [again, if_neg absent, decode, rewrite_other miss]
              exact congrArg (d :: ·) ih
            · by_cases kind : d ∈ kinds
              · rw [encode_cons, if_pos (List.mem_cons_of_mem c kind), if_pos kind,
                  decode_entity special (sub kind) here, ih]
              · rw [encode_cons, if_neg (fun mem => (List.mem_cons.mp mem).elim here kind), if_neg kind,
                  List.singleton_append, List.singleton_append, decode, rewrite_other miss]
                exact congrArg (d :: ·) ih

end

section

variable {word : Text} {c : Char} (shorter : [c].length < word.length) {s : Text}

theorem length_decode_le : ((decode word c shorter).rewrite s).length ≤ s.length := length_rewrite_le s

theorem decode_eq_self_iff : (decode word c shorter).rewrite s = s ↔ ¬word <:+: s := rewrite_eq_self_iff s

theorem decode_eq_self_of_length (length : ((decode word c shorter).rewrite s).length = s.length) :
    (decode word c shorter).rewrite s = s :=
  rewrite_eq_self_of_length (Nat.le_of_eq length.symm)

end

/-- The first two loops take back what `id2xml` did, and what the other three do to the rest they do to the text. -/
theorem xml2id_id2xml (s : Text) : xml2id (id2xml s) = quotPass.rewrite (aposPass.rewrite (ampPass.rewrite s)) := by
  have gt : gtPass.rewrite (id2xml s) = encode ['<', '&', '\'', '"'] s := by
    rw [id2xml_eq]
    exact decode_encode (by decide) (by decide) (by decide) (by decide) s
  have lt : ltPass.rewrite (encode ['<', '&', '\'', '"'] s) = encode ['&', '\'', '"'] s :=
    decode_encode (by decide) (by decide) (by decide) (by decide) s
  have amp : ampPass.rewrite (encode ['&', '\'', '"'] s) = encode ['\'', '"'] (ampPass.rewrite s) :=
    decode_encode_raw (by decide) (by decide) (by decide) (by decide) s
  have apos (t : Text) : aposPass.rewrite (encode ['\'', '"'] t) = encode ['"'] (aposPass.rewrite t) :=
    decode_encode_raw (by decide) (by decide) (by decide) (by decide) t
  have quot (t : Text) : quotPass.rewrite (encode ['"'] t) = encode [] (quotPass.rewrite t) :=
    decode_encode_raw (by decide) (by decide) (by decide) (by decide) t
  rw [xml2id, gt, lt, amp, apos, quot, encode_none]

/-- A text comes back unless it has one of the last three entities in it already. -/
theorem xml2id_id2xml_iff (s : Text) : xml2id (id2xml s) = s ↔
    ¬"&amp;".toList <:+: s ∧ ¬"&apos;".toList <:+: s ∧ ¬"&quot;".toList <:+: s := by
  have amp : ampPass.rewrite s = s ↔ ¬"&amp;".toList <:+: s := decode_eq_self_iff (by decide)
  have apos : aposPass.rewrite s = s ↔ ¬"&apos;".toList <:+: s := decode_eq_self_iff (by decide)
  have quot : quotPass.rewrite s = s ↔ ¬"&quot;".toList <:+: s := decode_eq_self_iff (by decide)
  rw [xml2id_id2xml, ← amp, ← apos, ← quot]
  constructor
  · intro same
    -- no loop makes a text longer, so none of the three makes it shorter
    have whole := congrArg List.length same
    have one : (ampPass.rewrite s).length ≤ s.length := length_decode_le (by decide)
    have two (t : Text) : (aposPass.rewrite t).length ≤ t.length := length_decode_le (by decide)
    have three (t : Text) : (quotPass.rewrite t).length ≤ t.length := length_decode_le (by decide)
    have two_ := two (ampPass.rewrite s)
    have three_ := three (aposPass.rewrite (ampPass.rewrite s))
    have first : ampPass.rewrite s = s := decode_eq_self_of_length (by decide) (by unfold ampPass at *; omega)
    rw [first] at same two_ three_ whole
    have second : aposPass.rewrite s = s := decode_eq_self_of_length (by decide) (by unfold aposPass at *; omega)
    rw [second] at same
    exact ⟨first, second, same⟩
  · intro same
    rw [same.1, same.2.1, same.2.2]

/-- An entity for an ampersand is taken back twice. -/
theorem amp_not_back : ¬∀ s : Text, xml2id (id2xml s) = s := by
  intro all
  have same := all "&amp;".toList
  revert same
  decide +kernel

end Libdap.Escaping

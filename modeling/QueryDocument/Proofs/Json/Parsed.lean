import QueryDocument.Json.Decode
import QueryDocument.Proofs.Json.Scanned

/-!
Reading back a tree that was written: `ofText_write` for all trees in which every literal denotes
something. Behind a value the reader goes on where it would go on with the value itself in place of
its tokens.
-/
namespace QueryDocument
namespace Json

mutual
/-- Every literal in the tree denotes something that is read back. -/
def Sound : Json → Prop
  | .null | .bool _ => True
  | .number n => (Token.number n).Sound
  | .string s => (Token.string s).Sound
  | .array items => SoundItems items
  | .object members => SoundMembers members
  | .broken => False

def SoundItems : List Json → Prop
  | [] => True
  | j :: js => j.Sound ∧ SoundItems js

def SoundMembers : List (Option String × Json) → Prop
  | [] => True
  | (k, j) :: ms => (Token.string k).Sound ∧ j.Sound ∧ SoundMembers ms
end

theorem soundItems_iff (js : List Json) : SoundItems js ↔ ∀ j ∈ js, j.Sound := by
  induction js with
  | nil => simp [SoundItems]
  | cons j js ih => simp [SoundItems, ih]

theorem soundMembers_iff (ms : List (Option String × Json)) :
    SoundMembers ms ↔ ∀ m ∈ ms, (Token.string m.1).Sound ∧ m.2.Sound := by
  induction ms with
  | nil => simp [SoundMembers]
  | cons m ms ih => simp only [SoundMembers, ih, List.forall_mem_cons, and_assoc]

/-- What is written behind the first piece. -/
def following (tss : List (List Token)) : List Token := tss.flatMap fun ts => .comma :: ts

theorem following_cons (ts : List Token) (tss : List (List Token)) :
    following (ts :: tss) = .comma :: (ts ++ following tss) := rfl

/-- Commas stand between the pieces, hence before each but the first. -/
theorem commaed_cons (ts : List Token) (tss : List (List Token)) :
    commaed (ts :: tss) = ts ++ following tss := by
  induction tss generalizing ts with
  | nil => exact (List.append_nil ts).symm
  | cons us tss ih => rw [commaed, ih us, following_cons]; simp

/-- A comma ends whatever stands before it. -/
theorem closed_following {ts : List Token} (h : Token.Closed ts) (tss : List (List Token)) :
    Token.Closed (following tss ++ ts) := by
  cases tss with
  | nil => exact h
  | cons us tss => exact Token.closed_cons rfl _

theorem tokens_array (j : Json) (js : List Json) (ts : List Token) :
    (array (j :: js)).tokens ++ ts =
      .openBracket :: (j.tokens ++ (following (tokensOfItems js) ++ .closeBracket :: ts)) := by
  rw [tokens, tokensOfItems, commaed_cons]
  simp

theorem tokens_object (k : Option String) (j : Json) (ms : List (Option String × Json))
    (ts : List Token) : (object ((k, j) :: ms)).tokens ++ ts = .openBrace :: .string k :: .colon ::
      (j.tokens ++ (following (tokensOfMembers ms) ++ .closeBrace :: ts)) := by
  rw [tokens, tokensOfMembers, commaed_cons]
  simp

theorem following_items (j : Json) (js : List Json) (ts : List Token) :
    following (tokensOfItems (j :: js)) ++ ts =
      .comma :: (j.tokens ++ (following (tokensOfItems js) ++ ts)) := by
  rw [tokensOfItems, following_cons]
  simp

theorem following_members (k : Option String) (j : Json) (ms : List (Option String × Json))
    (ts : List Token) : following (tokensOfMembers ((k, j) :: ms)) ++ ts =
      .comma :: .string k :: .colon :: (j.tokens ++ (following (tokensOfMembers ms) ++ ts)) := by
  rw [tokensOfMembers, following_cons]
  simp

/-- No value begins with a closing bracket. -/
theorem exists_tokens (j : Json) : ∃ t ts, j.tokens = t :: ts ∧ t ≠ .closeBracket := by
  cases j with
  | null => exact ⟨_, _, rfl, nofun⟩
  | bool b => exact ⟨_, _, rfl, nofun⟩
  | number n => exact ⟨_, _, rfl, nofun⟩
  | string s => exact ⟨_, _, rfl, nofun⟩
  | array items => exact ⟨_, _, rfl, nofun⟩
  | object members => exact ⟨_, _, rfl, nofun⟩
  | broken => exact ⟨_, _, rfl, nofun⟩

open Token in
mutual
/-- Written side by side no two tokens run into each other. -/
theorem row_tokens : (j : Json) → j.Sound → ∀ {ts}, Row ts → Closed ts → Row (j.tokens ++ ts)
  | .null, _, _, hr, _ => ⟨trivial, nofun, hr⟩
  | .bool _, _, _, hr, _ => ⟨trivial, nofun, hr⟩
  | .number _, h, _, hr, hc => ⟨h, fun _ => hc, hr⟩
  | .string _, h, _, hr, _ => ⟨h, nofun, hr⟩
  | .array [], _, _, hr, _ => ⟨trivial, nofun, trivial, nofun, hr⟩
  | .array (j :: js), h, ts, hr, _ => by
    obtain ⟨hj, hjs⟩ := h
    have hclose : Row (.closeBracket :: ts) := ⟨trivial, nofun, hr⟩
    have hitems := row_items js hjs hclose (closed_cons rfl ts)
    have hfirst := row_tokens j hj hitems (closed_following (closed_cons rfl ts) _)
    rw [tokens_array]
    exact ⟨trivial, nofun, hfirst⟩
  | .object [], _, _, hr, _ => ⟨trivial, nofun, trivial, nofun, hr⟩
  | .object ((k, j) :: ms), h, ts, hr, _ => by
    obtain ⟨hk, hj, hms⟩ := h
    have hclose : Row (.closeBrace :: ts) := ⟨trivial, nofun, hr⟩
    have hmembers := row_members ms hms hclose (closed_cons rfl ts)
    have hfirst := row_tokens j hj hmembers (closed_following (closed_cons rfl ts) _)
    rw [tokens_object]
    exact ⟨trivial, nofun, hk, nofun, trivial, nofun, hfirst⟩
  | .broken, h, _, _, _ => h.elim

theorem row_items : (js : List Json) → SoundItems js → ∀ {ts}, Row ts → Closed ts →
    Row (following (tokensOfItems js) ++ ts)
  | [], _, _, hr, _ => hr
  | j :: js, h, ts, hr, hc => by
    have hitems := row_items js h.2 hr hc
    have hfirst := row_tokens j h.1 hitems (closed_following hc _)
    rw [following_items]
    exact ⟨trivial, nofun, hfirst⟩

theorem row_members : (ms : List (Option String × Json)) → SoundMembers ms → ∀ {ts}, Row ts →
    Closed ts → Row (following (tokensOfMembers ms) ++ ts)
  | [], _, _, hr, _ => hr
  | (k, j) :: ms, h, ts, hr, hc => by
    have hmembers := row_members ms h.2.2 hr hc
    have hfirst := row_tokens j h.2.1 hmembers (closed_following hc _)
    rw [following_members]
    exact ⟨trivial, nofun, h.1, nofun, trivial, nofun, hfirst⟩
end

/-- A bracket that is not closed at once opens an array. -/
theorem readValue_openBracket (stack : List Frame) (j : Json) (ts : List Token) :
    readValue stack (.openBracket :: (j.tokens ++ ts)) =
      readValue (.array [] :: stack) (j.tokens ++ ts) := by
  obtain ⟨t, us, ht, hne⟩ := exists_tokens j
  rw [ht, List.cons_append, readValue]
  intro _ h
  exact hne (List.cons.inj h).1

mutual
/-- Behind the tokens of a value the reader goes on as it does behind the value. -/
theorem readValue_tokens : (j : Json) → j.Sound → ∀ (stack : List Frame) (ts : List Token),
    readValue stack (j.tokens ++ ts) = readRest stack j ts
  | .null, _, _, _ => rfl
  | .bool _, _, _, _ => rfl
  | .number _, _, _, _ => rfl
  | .string _, _, _, _ => rfl
  | .array [], _, _, _ => rfl
  | .array (j :: js), h, stack, ts => by
    rw [tokens_array, readValue_openBracket, readValue_tokens j h.1, readRest_items js h.2]
    rfl
  | .object [], _, _, _ => rfl
  | .object ((k, j) :: ms), h, stack, ts => by
    rw [tokens_object, readValue, readValue_tokens j h.2.1, readRest_members ms h.2.2]
    rfl
  | .broken, h, _, _ => h.elim

/-- Behind an item the others are read one by one, with those before it kept on the stack in
reverse. -/
theorem readRest_items : (js : List Json) → SoundItems js → ∀ (stack : List Frame)
    (before : List Json) (j : Json) (ts : List Token),
    readRest (.array before :: stack) j (following (tokensOfItems js) ++ .closeBracket :: ts) =
      readRest stack (.array ((j :: before).reverse ++ js)) ts
  | [], _, stack, before, j, ts => by
    rw [List.append_nil]
    rfl
  | j' :: js, h, stack, before, j, ts => by
    rw [following_items, readRest, readValue_tokens j' h.1, readRest_items js h.2]
    simp

theorem readRest_members : (ms : List (Option String × Json)) → SoundMembers ms →
    ∀ (stack : List Frame) (before : List (Option String × Json)) (k : Option String) (j : Json)
    (ts : List Token),
    readRest (.object before k :: stack) j (following (tokensOfMembers ms) ++ .closeBrace :: ts) =
      readRest stack (.object (((k, j) :: before).reverse ++ ms)) ts
  | [], _, stack, before, k, j, ts => by
    rw [List.append_nil]
    rfl
  | (k', j') :: ms, h, stack, before, k, j, ts => by
    have hcomma (ts : List Token) :
        readRest (.object before k :: stack) j (.comma :: .string k' :: .colon :: ts) =
          readValue (.object ((k, j) :: before) k' :: stack) ts := rfl
    rw [following_members, hcomma, readValue_tokens j' h.2.1, readRest_members ms h.2.2]
    simp
end

/-- A tree in which every literal denotes something is read back from its text. -/
theorem ofText_write {j : Json} (h : j.Sound) : ofText j.write = (j, true) := by
  have hrow : Token.Row j.tokens := by
    have happend : Token.Row (j.tokens ++ []) := row_tokens j h trivial Token.closed_nil
    rwa [List.append_nil] at happend
  have hread : readValue [] j.tokens = (j, []) := by
    have happend := readValue_tokens j h [] []
    rwa [List.append_nil] at happend
  rw [ofText, write, Token.scan_text hrow, hread]
  rfl

/-- A written tree is read as the tree itself, and nothing is left behind it. -/
theorem decode_write {j : Json} (h : j.Sound) (slot : Slot) :
    decode slot j.write = j.read .strict slot := by
  rw [decode, ofText_write h]
  dsimp only
  cases j.read .strict slot <;> rfl

end Json
end QueryDocument

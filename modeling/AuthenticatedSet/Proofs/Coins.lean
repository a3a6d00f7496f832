import AuthenticatedSet.Proofs.Store
import AuthenticatedSet.SkipList.Build
import AuthenticatedSet.SkipList.Update

/-!
# What is drawn settles what is done

A draw takes the heads in front and the tail behind them. Programs that draw look at the words they
take and at nothing behind them: on any stream with the same words in front they do the same, and
they take these words from it.

* `Coins.Flips`, `.FlipsAll` -- what one draw, and several in a row, take off a stream
* `Coins.Follows`            -- a stream with the first words of a sequence in front
* `Coins.GoesByDrawn`        -- a program that goes by the words it takes
* `Coins.Settles`            -- what a program does on any sequence of words
* `SkipList.insert_goesByDrawn`, `.ofKeys_goesByDrawn` -- the two that draw are such programs

The type of streams asks for a tail behind every position, and a sequence on which some run of heads
never ends is none of its values. A program that comes to an answer on such a sequence has taken
finitely many words in front of that run: these settle the answer.
-/

namespace AuthenticatedSet

namespace Coins

/-! ## 1. Draws -/

/-- One draw: `t` heads and the tail behind them have been taken off `c`, which leaves `c'`. -/
structure Flips (c : Coins) (t : Nat) (c' : Coins) : Prop where
  heads : ∀ i < t, c.word (c.drawn + i) % 2 = 1
  tail : c.word (c.drawn + t) % 2 = 0
  word : c'.word = c.word
  drawn : c'.drawn = c.drawn + (t + 1)

/-- Draws one after the other, and nothing taken between them. -/
inductive FlipsAll : Coins → List Nat → Coins → Prop
  | nil (c : Coins) : FlipsAll c [] c
  | cons {c c' c'' : Coins} {t : Nat} {rest : List Nat} (first : c.Flips t c')
      (others : FlipsAll c' rest c'') : FlipsAll c (t :: rest) c''

variable {c c' c'' : Coins} {t t' n m : Nat} {ts ts' : List Nat}

/-- **What a draw takes**: the heads in front, and one tail. -/
theorem flips_draw (c : Coins) : c.Flips c.draw.1 c.draw.2 where
  heads i lt := of_decide_eq_true (isHead_of_lt_heads lt)
  tail := by
    obtain ⟨i, le, tail⟩ := c.ends c.drawn
    have here : isHead c.word (c.drawn + i) = false := by simp [isHead, tail]
    have stop : ¬ c.word (c.drawn + c.draw.1) % 2 = 1 :=
      of_decide_eq_false (not_isHead_heads le here)
    grind
  word := rfl
  drawn := (Nat.add_assoc _ _ _)

/-- How many heads there are in front does not depend on who counts them. -/
theorem Flips.unique (h : c.Flips t c') (h' : c.Flips t' c'') : t = t' := by
  have le : ∀ {t t' : Nat} {c' c'' : Coins}, c.Flips t c' → c.Flips t' c'' → t ≤ t' := by
    intro t t' c' c'' h h'
    by_contra lt
    have head := h.heads t' (not_le.mp lt)
    rw [h'.tail] at head
    exact absurd head (by decide)
  exact le_antisymm (le h h') (le h' h)

theorem FlipsAll.append (h : c.FlipsAll ts c') (h' : c'.FlipsAll ts' c'') :
    c.FlipsAll (ts ++ ts') c'' := by
  induction h with
  | nil => exact h'
  | cons first _ ih => exact .cons first (ih h')

theorem flipsAll_draws (n : Nat) (c : Coins) : c.FlipsAll (c.draws n).1 (c.draws n).2 := by
  induction n generalizing c with
  | zero => exact .nil c
  | succ n ih => exact .cons c.flips_draw (ih c.draw.2)

/-! ## 2. The words in front -/

/-- The words that have not been drawn. -/
def ahead (c : Coins) (i : Nat) : UInt32 := c.word (c.drawn + i)

/-- The stream after so many words more. -/
def after (c : Coins) (n : Nat) : Coins := { c with drawn := c.drawn + n }

/-- The next `n` words are the first ones of a sequence. -/
def Follows (c : Coins) (word : Nat → UInt32) (n : Nat) : Prop := ∀ i < n, c.ahead i = word i

variable {word word' : Nat → UInt32}

theorem follows_ahead (c : Coins) (n : Nat) : c.Follows c.ahead n := fun _ _ => rfl

theorem Follows.mono (h : c.Follows word n) (le : m ≤ n) : c.Follows word m :=
  fun i lt => h i (Nat.lt_of_lt_of_le lt le)

/-- Whatever the sequence, there is a stream that starts like it. -/
theorem follows_ofWords (word : Nat → UInt32) (n : Nat) :
    (ofWords ((List.range n).map word)).Follows word n := by
  intro i lt
  simp [ahead, ofWords, lt]

theorem ahead_after (c : Coins) (n i : Nat) : (c.after n).ahead i = c.ahead (n + i) := by
  rw [ahead, ahead, after, Nat.add_assoc]

theorem after_after (c : Coins) (n m : Nat) : (c.after n).after m = c.after (n + m) := by
  rw [after, after, after, Nat.add_assoc]

theorem Follows.after (h : c'.Follows c.ahead (n + m)) :
    (c'.after n).Follows (c.after n).ahead m := by
  intro i lt
  rw [ahead_after, ahead_after]
  exact h (n + i) (Nat.add_lt_add_left lt n)

/-- A draw from one stream is one from every stream that starts with the same words. -/
theorem Flips.of_follows (h : c.Flips t c') (same : c''.Follows c.ahead (t + 1)) :
    c''.Flips t (c''.after (t + 1)) where
  heads i lt := by
    rw [← h.heads i lt]
    exact congrArg (· % 2) (same i (Nat.lt_succ_of_lt lt))
  tail := by
    rw [← h.tail]
    exact congrArg (· % 2) (same t (Nat.lt_succ_self t))
  word := rfl
  drawn := rfl

/-! ## 3. Programs that draw -/

section Programs

variable {α β : Type} {run : Coins → Except Fault (α × Coins)} {a a' : α}

/-- A program goes by the words that it takes off its coins: on every stream with the same `n` words
in front it answers the same, or stops at the same fault, and takes just these off that stream. -/
def GoesByDrawn (run : Coins → Except Fault (α × Coins)) : Prop :=
  ∀ c : Coins, ∃ (n : Nat) (answer : Except Fault α), ∀ c' : Coins, c'.Follows c.ahead n →
    run c' = answer.map fun a => (a, c'.after n)

/-- What the program does on a sequence of words, with or without tails behind every position: it
takes the first `n` of them and answers, whatever comes after. -/
def Settles (run : Coins → Except Fault (α × Coins)) (word : Nat → UInt32) (n : Nat) (a : α) :
    Prop :=
  ∀ c : Coins, c.Follows word n → run c = .ok (a, c.after n)

/-- **A sequence settles one answer at most**, and how many words it takes. -/
theorem Settles.unique (h : Settles run word n a) (h' : Settles run word m a') :
    n = m ∧ a = a' := by
  have long := follows_ofWords word (max n m)
  have both := (h _ (long.mono (Nat.le_max_left n m))).symm.trans
    (h' _ (long.mono (Nat.le_max_right n m)))
  obtain ⟨answers, streams⟩ := Prod.mk.inj (Except.ok.inj both)
  exact ⟨Nat.add_left_cancel (congrArg drawn streams), answers⟩

/-- **The words taken settle the answer**. -/
theorem GoesByDrawn.settles (goes : GoesByDrawn run) (ok : run c = .ok (a, c')) :
    ∃ n, c' = c.after n ∧ Settles run c.ahead n a := by
  obtain ⟨n, answer, same⟩ := goes c
  rw [same c (c.follows_ahead n)] at ok
  cases answer with
  | error fault => cases ok
  | ok a' =>
    cases ok
    exact ⟨n, rfl, same⟩

/-- **A sequence that need not be a stream**: if the program comes to an answer on the first words
of it, without taking more than these, then it comes to this answer on all that starts with the
words taken. -/
theorem GoesByDrawn.settles_of_words (goes : GoesByDrawn run)
    (ok : run (ofWords ((List.range n).map word)) = .ok (a, c')) (enough : c'.drawn ≤ n) :
    Settles run word c'.drawn a := by
  obtain ⟨m, rfl, settles⟩ := goes.settles ok
  have drawn : ((ofWords ((List.range n).map word)).after m).drawn = m := Nat.zero_add m
  rw [drawn] at enough ⊢
  intro c follows
  refine settles c fun i lt => ?_
  rw [follows i lt, follows_ofWords word n i (Nat.lt_of_lt_of_le lt enough)]

/-- An answer without a draw. -/
theorem GoesByDrawn.pure (a : α) : GoesByDrawn fun c => .ok (a, c) :=
  fun _ => ⟨0, .ok a, fun _ _ => rfl⟩

/-- A part that knows nothing of the coins. -/
theorem GoesByDrawn.lift (x : Except Fault β) {rest : β → Coins → Except Fault (α × Coins)}
    (goes : ∀ b, GoesByDrawn (rest b)) : GoesByDrawn fun c => x >>= fun b => rest b c := by
  cases x with
  | error fault => exact fun _ => ⟨0, .error fault, fun _ _ => rfl⟩
  | ok b => exact goes b

/-- A program that goes on with the coins that another one has left. -/
theorem GoesByDrawn.bind (goes : GoesByDrawn run) {rest : α → Coins → Except Fault (β × Coins)}
    (goes' : ∀ a, GoesByDrawn (rest a)) :
    GoesByDrawn fun c => run c >>= fun result => rest result.1 result.2 := by
  intro c
  obtain ⟨n, answer, same⟩ := goes c
  cases answer with
  | error fault =>
    refine ⟨n, .error fault, fun c' follows => ?_⟩
    show (run c' >>= _) = _
    rw [same c' follows]
    rfl
  | ok a =>
    obtain ⟨m, answer', same'⟩ := goes' a (c.after n)
    refine ⟨n + m, answer', fun c' follows => ?_⟩
    show (run c' >>= _) = _
    rw [same c' (follows.mono (Nat.le_add_right n m)), ← after_after]
    exact same' _ follows.after

/-- **Drawing goes by the run of heads and the tail behind it.** -/
theorem draw_goesByDrawn : GoesByDrawn fun c => .ok c.draw := by
  intro c
  refine ⟨c.draw.1 + 1, .ok c.draw.1, fun c' follows => ?_⟩
  have count : c'.draw.1 = c.draw.1 := c'.flips_draw.unique (c.flips_draw.of_follows follows)
  rw [← count]
  rfl

theorem draws_goesByDrawn (n : Nat) : GoesByDrawn fun c => .ok (c.draws n) := by
  induction n with
  | zero => exact .pure []
  | succ n ih => exact draw_goesByDrawn.bind fun first => ih.bind fun rest => .pure (first :: rest)

end Programs

end Coins

/-! ## 4. The operations -/

namespace SkipList

open Coins

/-- **An insertion goes by the words it draws.** -/
theorem insert_goesByDrawn (l : SkipList) (h : Hasher) (key : Key) :
    GoesByDrawn fun c => l.insert h key c := by
  refine .lift _ fun trail => .lift _ fun found => ?_
  cases found with
  | true => exact .pure _
  | false => exact draw_goesByDrawn.bind fun levels => .lift _ fun change => .pure change

/-- **Building goes by the words it draws.** -/
theorem ofKeys_goesByDrawn (h : Hasher) (keys : List Key) :
    GoesByDrawn fun c => (ofKeys h keys c).map fun (l, c', events) => ((l, events), c') := by
  intro c
  obtain ⟨n, answer, same⟩ := draws_goesByDrawn (ascending keys).length c
  cases answer with
  | error fault => nomatch same c (c.follows_ahead n)
  | ok heights =>
    refine ⟨n, (ofKeys h keys c).map fun (l, _, events) => (l, events), fun c' follows => ?_⟩
    have here := Except.ok.inj (same c (c.follows_ahead n))
    have there := Except.ok.inj (same c' follows)
    simp only [ofKeys, here, there]
    cases Store.layLevels _ h _ _ _ with
    | error fault => rfl
    | ok laid => rfl

end SkipList

end AuthenticatedSet

import Mathlib.Data.Multiset.ZeroCons
import ZzLang.Library.Circular

/-!
# The deque of a worker

A worker of the executor of compiled programs keeps its tasks in a deque: it pushes and pops at the
bottom, and other workers steal from the top with an exchange. `top` and `bottom` count positions;
position `p` is cell `p % 4096` of a buffer of fixed size. The owner takes the last position away
before it knows whether a thief is about to take it too, and settles that with the exchange that
the thieves use.

A step is one access to memory that other threads change. `content` records the tasks that have
been pushed and not handed out, oldest first. `won` records whether the owner has ever won the
exchange for the only task left: it then leaves `bottom` as it is, one below the new top.

`Ok` says what the two counters and the buffer have to do with `content` in every phase of an
operation, and `Seen` what a thief knows. The steps of the owner and of the thieves keep both, and
hand out the tasks that `content` loses.
-/

namespace ZzLang.Aot

open Circular

variable {T : Type}

/-- `ZZ_DEQUE_CAP`. -/
def dequeCap : ℕ := 4096

/-- The number of values of a `size_t`. -/
def sizeMod : ℕ := 2 ^ 64

/-- The difference of two `size_t`, which wraps around. -/
def sizeSub (a b : ℕ) : ℕ := (a + sizeMod - b) % sizeMod

theorem dequeCap_lt_sizeMod : dequeCap + 1 < sizeMod := by decide

-- the sizes are never computed with
attribute [irreducible] dequeCap sizeMod

theorem sizeSub_of_le {a b : ℕ} (h : b ≤ a) (hlt : a - b < sizeMod) : sizeSub a b = a - b := by
  rw [sizeSub, show a + sizeMod - b = a - b + sizeMod by omega, Nat.add_mod_right,
    Nat.mod_eq_of_lt hlt]

theorem sizeSub_succ (a : ℕ) : sizeSub a (a + 1) = sizeMod - 1 := by
  have := dequeCap_lt_sizeMod
  rw [sizeSub, show a + sizeMod - (a + 1) = sizeMod - 1 by omega, Nat.mod_eq_of_lt (by omega)]

/-- `zz_deque_t`, with the record of what it holds. -/
structure Deque (T : Type) where
  buf : ℕ → Option T
  top : ℕ
  bottom : ℕ
  content : List T
  won : Bool

/-- An empty deque. -/
def Deque.new : Deque T := ⟨fun _ => none, 0, 0, [], false⟩

/-! ### The owner -/

/-- Where the owner stands in `zz_deque_push` or `zz_deque_pop`. -/
inductive Owner (T : Type)
  | write (t : T) (bottom : ℕ)
  | publish (t : T) (bottom : ℕ)
  | popBottom
  | popTop (bottom : ℕ)
  | popCas (bottom : ℕ) (value : Option T)
  | popRestore (bottom : ℕ)

/-- The task that is about to be pushed. -/
def Owner.hand : Owner T → Multiset T
  | write t _ | publish t _ => {t}
  | _ => 0

/-- What follows a step of the owner. -/
inductive OwnerNext (T : Type)
  | go (o : Owner T)
  | pushed
  | empty
  | got (value : Option T)

/-- A step of `zz_deque_push` or `zz_deque_pop`. -/
def Deque.own (dq : Deque T) : Owner T → Deque T × OwnerNext T
  | .write t bottom =>
    ({ dq with buf := Function.update dq.buf (bottom % dequeCap) (some t) },
      .go (.publish t bottom))
  | .publish t bottom => ({ dq with bottom := bottom + 1, content := dq.content ++ [t] }, .pushed)
  | .popBottom =>
    if dq.bottom = 0 then (dq, .empty)
    else ({ dq with bottom := dq.bottom - 1 }, .go (.popTop (dq.bottom - 1)))
  | .popTop bottom =>
    if dq.top > bottom then (dq, .go (.popRestore bottom))
    else if dq.top = bottom then (dq, .go (.popCas bottom (dq.buf (bottom % dequeCap))))
    else ({ dq with content := dq.content.dropLast }, .got (dq.buf (bottom % dequeCap)))
  | .popCas bottom value =>
    if dq.top = bottom then
      ({ dq with top := bottom + 1, content := dq.content.dropLast, won := true }, .got value)
    else (dq, .go (.popRestore bottom))
  | .popRestore bottom => ({ dq with bottom := bottom + 1 }, .empty)

/-- Where the owner stands after a step, if it is still in the operation. -/
def OwnerNext.owner : OwnerNext T → Option (Owner T)
  | go o => some o
  | _ => none

/-! ### A thief -/

/-- Where a thief stands in `zz_deque_steal`. -/
inductive Thief (T : Type)
  | top
  | bottom (top : ℕ)
  | read (top : ℕ)
  | cas (top : ℕ) (value : Option T)

/-- What follows a step of a thief. -/
inductive ThiefNext (T : Type)
  | go (th : Thief T)
  | miss
  | got (value : Option T)

/-- A step of `zz_deque_steal`. -/
def Deque.rob (dq : Deque T) : Thief T → Deque T × ThiefNext T
  | .top => (dq, .go (.bottom dq.top))
  | .bottom top => if top ≥ dq.bottom then (dq, .miss) else (dq, .go (.read top))
  | .read top => (dq, .go (.cas top (dq.buf (top % dequeCap))))
  | .cas top value =>
    if dq.top = top then ({ dq with top := top + 1, content := dq.content.tail }, .got value)
    else (dq, .miss)

/-! ### What the counters mean -/

/-- The end of the positions that hold a task: the owner has taken the last one away before it
knows whether the task is its own. -/
def Deque.last (dq : Deque T) : Option (Owner T) → ℕ
  | some (.popTop bottom) | some (.popCas bottom _) | some (.popRestore bottom) => bottom + 1
  | _ => dq.bottom

/-- What is known of the deque where the owner stands. -/
def Deque.Phase (dq : Deque T) : Option (Owner T) → Prop
  | some (.write _ bottom) => bottom = dq.bottom ∧ dq.won = false ∧ bottom < dq.top + dequeCap
  | some (.publish t bottom) => bottom = dq.bottom ∧ dq.won = false ∧
      bottom < dq.top + dequeCap ∧ dq.buf (bottom % dequeCap) = some t
  | some (.popTop bottom) => bottom = dq.bottom
  | some (.popCas bottom value) => bottom = dq.bottom ∧ dq.won = false ∧ bottom ≤ dq.top ∧
      value = dq.buf (bottom % dequeCap)
  | some (.popRestore bottom) => bottom = dq.bottom ∧ bottom < dq.top
  | _ => True

/-- The deque holds the tasks at the positions from the top to the last, and after the owner has
won an exchange it is empty for good, with the top one too high. -/
structure Deque.Ok (dq : Deque T) (o : Option (Owner T)) : Prop where
  top_le : dq.won = false → dq.top ≤ dq.last o
  drift : dq.won = true → dq.top = dq.last o + 1
  room : dq.last o ≤ dq.top + dequeCap
  content : dq.content.map some = window dequeCap dq.buf dq.top (dq.last o - dq.top)
  phase : dq.Phase o

/-- A thief has read a top that is not ahead, and if it is still the top then there is a task, the
one that the thief has read. -/
def Deque.Seen (dq : Deque T) (o : Option (Owner T)) : Thief T → Prop
  | .top => True
  | .bottom top => top ≤ dq.top
  | .read top => top ≤ dq.top ∧ (top = dq.top → top < dq.last o)
  | .cas top value => top ≤ dq.top ∧
      (top = dq.top → top < dq.last o ∧ value = dq.buf (top % dequeCap))

namespace Deque

variable {dq : Deque T} {o : Option (Owner T)}

theorem ok_new : (new : Deque T).Ok none where
  top_le _ := le_rfl
  drift h := by cases h
  room := Nat.zero_le _
  content := rfl
  phase := trivial

theorem Ok.length_content (h : dq.Ok o) : dq.content.length = dq.last o - dq.top := by
  have := congrArg List.length h.content
  simpa using this

/-- A deque with a task at the top has not drifted, and its oldest task is the one at the top. -/
theorem Ok.content_cons (h : dq.Ok o) (hlt : dq.top < dq.last o) :
    ∃ t ts, dq.content = t :: ts ∧ dq.buf (dq.top % dequeCap) = some t ∧ dq.won = false ∧
      ts.map some = window dequeCap dq.buf (dq.top + 1) (dq.last o - (dq.top + 1)) := by
  have hcontent := h.content
  rw [show dq.last o - dq.top = dq.last o - (dq.top + 1) + 1 by omega, window_succ_cons] at hcontent
  obtain ⟨t, ts, hcons, ht, hts⟩ := List.map_eq_cons_iff.mp hcontent
  refine ⟨t, ts, hcons, ht.symm, ?_, hts⟩
  by_contra hwon
  have := h.drift (by simpa using hwon)
  omega

/-- The newest task is the one at the last position. -/
theorem Ok.content_concat (h : dq.Ok o) (hlt : dq.top < dq.last o) {last : ℕ}
    (hlast : dq.last o = last + 1) :
    ∃ t ts, dq.content = ts ++ [t] ∧ dq.buf (last % dequeCap) = some t ∧
      ts.map some = window dequeCap dq.buf dq.top (last - dq.top) := by
  have hcontent := h.content
  rw [show dq.last o - dq.top = last - dq.top + 1 by omega, window_succ,
    show dq.top + (last - dq.top) = last by omega] at hcontent
  obtain ⟨ts, ts', hsplit, hts, hlast⟩ := List.map_eq_append_iff.mp hcontent
  obtain ⟨t, rfl, ht⟩ := List.map_eq_singleton_iff.mp hlast
  exact ⟨t, ts, hsplit, ht.symm, hts⟩

/-! ### Steps of the owner -/

/-- What a step of the owner does to the content: a task is pushed, the newest is handed out, or
nothing happens. -/
inductive Owned (dq dq' : Deque T) : Owner T → OwnerNext T → Prop
  | push (t : T) (bottom : ℕ) (h : dq'.content = dq.content ++ [t]) :
      Owned dq dq' (.publish t bottom) .pushed
  | pop {o : Owner T} (t : T) (ho : o.hand = 0) (h : dq.content = dq'.content ++ [t]) :
      Owned dq dq' o (.got (some t))
  | go {o : Owner T} (o' : Owner T) (ho : o'.hand = o.hand) (h : dq'.content = dq.content) :
      Owned dq dq' o (.go o')
  | empty {o : Owner T} (ho : o.hand = 0) (h : dq'.content = dq.content) : Owned dq dq' o .empty

theorem Ok.write {t : T} {bottom : ℕ} (h : dq.Ok (some (.write t bottom))) :
    Ok { dq with buf := Function.update dq.buf (bottom % dequeCap) (some t) }
      (some (.publish t bottom)) := by
  obtain ⟨rfl, hwon, hroom⟩ := h.phase
  have hle : dq.top ≤ dq.bottom := h.top_le hwon
  refine ⟨h.top_le, h.drift, h.room, h.content.trans ?_, rfl, hwon, hroom,
    Function.update_self ..⟩
  have hfresh := window_update dq.buf dq.top (show dq.bottom - dq.top < dequeCap by omega) (some t)
  rw [show dq.top + (dq.bottom - dq.top) = dq.bottom by omega] at hfresh
  exact hfresh.symm

theorem Ok.publish {t : T} {bottom : ℕ} (h : dq.Ok (some (.publish t bottom))) :
    Ok { dq with bottom := bottom + 1, content := dq.content ++ [t] } none := by
  obtain ⟨rfl, hwon, hroom, hbuf⟩ := h.phase
  have hle : dq.top ≤ dq.bottom := h.top_le hwon
  have hcontent : dq.content.map some = window dequeCap dq.buf dq.top (dq.bottom - dq.top) :=
    h.content
  refine ⟨fun _ => Nat.le_succ_of_le hle, fun hdrift => ?_, hroom, ?_, trivial⟩
  · rw [hwon] at hdrift
    cases hdrift
  · change (dq.content ++ [t]).map some =
      window dequeCap dq.buf dq.top (dq.bottom + 1 - dq.top)
    rw [show dq.bottom + 1 - dq.top = dq.bottom - dq.top + 1 by omega, window_succ,
      show dq.top + (dq.bottom - dq.top) = dq.bottom by omega, hbuf, List.map_append, hcontent]
    rfl

theorem Ok.popBottom (h : dq.Ok (some .popBottom)) (hne : dq.bottom ≠ 0) :
    Ok { dq with bottom := dq.bottom - 1 } (some (.popTop (dq.bottom - 1))) := by
  have hlast : Deque.last { dq with bottom := dq.bottom - 1 } (some (.popTop (dq.bottom - 1))) =
      dq.last (some .popBottom) := Nat.succ_pred_eq_of_ne_zero hne
  refine ⟨fun hwon => ?_, fun hdrift => ?_, ?_, ?_, rfl⟩ <;> rw [hlast]
  · exact h.top_le hwon
  · exact h.drift hdrift
  · exact h.room
  · exact h.content

/-- The owner takes a task that no thief can reach. -/
theorem Ok.popTop {bottom : ℕ} (h : dq.Ok (some (.popTop bottom))) (hlt : dq.top < bottom) :
    Ok { dq with content := dq.content.dropLast } none ∧
      ∃ t, dq.content = dq.content.dropLast ++ [t] ∧ dq.buf (bottom % dequeCap) = some t := by
  have hbottom : bottom = dq.bottom := h.phase
  have hwon : dq.won = false := by
    by_contra hcon
    have hdrift : dq.top = bottom + 1 + 1 := h.drift (by simpa using hcon)
    omega
  have hroom : bottom + 1 ≤ dq.top + dequeCap := h.room
  obtain ⟨t, ts, hsplit, hbuf, hts⟩ :=
    h.content_concat (show dq.top < bottom + 1 by omega) (show bottom + 1 = bottom + 1 from rfl)
  have hdrop : dq.content.dropLast = ts := by rw [hsplit, List.dropLast_concat]
  subst hbottom
  refine ⟨⟨fun _ => hlt.le, fun hdrift => ?_, show dq.bottom ≤ dq.top + dequeCap by omega, ?_,
    trivial⟩, t, by rw [hdrop, hsplit], hbuf⟩
  · rw [show dq.won = true from hdrift] at hwon
    cases hwon
  · exact (congrArg (List.map some) hdrop).trans hts

/-- The owner wins the exchange for the only task: the deque is empty, and has drifted. -/
theorem Ok.popCas {bottom : ℕ} {value : Option T} (h : dq.Ok (some (.popCas bottom value)))
    (heq : dq.top = bottom) :
    Ok { dq with top := bottom + 1, content := dq.content.dropLast, won := true } none ∧
      ∃ t, dq.content = dq.content.dropLast ++ [t] ∧ value = some t := by
  obtain ⟨hbottom, -, -, rfl⟩ := h.phase
  obtain ⟨t, ts, hsplit, hbuf, hts⟩ :=
    h.content_concat (show dq.top < bottom + 1 by omega) (show bottom + 1 = bottom + 1 from rfl)
  have hnil : ts = [] := by
    rw [show bottom - dq.top = 0 by omega, window_zero] at hts
    exact List.map_eq_nil_iff.mp hts
  subst hnil
  have hdrop : dq.content.dropLast = [] := by rw [hsplit]; rfl
  refine ⟨⟨fun hwon => (by cases hwon), fun _ => ?_, ?_, ?_, trivial⟩, t, ?_, hbuf⟩
  · exact congrArg (· + 1) hbottom
  · exact show dq.bottom ≤ bottom + 1 + dequeCap by omega
  · change dq.content.dropLast.map some = window dequeCap dq.buf (bottom + 1)
      (dq.bottom - (bottom + 1))
    rw [hdrop, show dq.bottom - (bottom + 1) = 0 by omega]
    rfl
  · rw [hdrop, hsplit]

/-- **A step of the owner** keeps the deque in order and hands out its newest task. -/
theorem Ok.own {o : Owner T} (h : dq.Ok (some o)) :
    (dq.own o).1.Ok (dq.own o).2.owner ∧ Owned dq (dq.own o).1 o (dq.own o).2 := by
  rcases o with ⟨t, bottom⟩ | ⟨t, bottom⟩ | _ | bottom | ⟨bottom, value⟩ | bottom
  · exact ⟨h.write, .go _ rfl rfl⟩
  · exact ⟨h.publish, .push t bottom rfl⟩
  · simp only [Deque.own]
    split_ifs with hzero
    · exact ⟨⟨h.top_le, h.drift, h.room, h.content, trivial⟩, .empty rfl rfl⟩
    · exact ⟨h.popBottom hzero, .go _ rfl rfl⟩
  · have hbottom : bottom = dq.bottom := h.phase
    simp only [Deque.own]
    split_ifs with hgt heq
    · exact ⟨⟨h.top_le, h.drift, h.room, h.content, hbottom, hgt⟩, .go _ rfl rfl⟩
    · refine ⟨⟨h.top_le, h.drift, h.room, h.content, hbottom, ?_, heq.ge, rfl⟩, .go _ rfl rfl⟩
      by_contra hcon
      have hdrift : dq.top = bottom + 1 + 1 := h.drift (by simpa using hcon)
      omega
    · obtain ⟨hok, t, hsplit, hbuf⟩ := h.popTop (by omega)
      rw [hbuf]
      exact ⟨hok, .pop t rfl hsplit⟩
  · simp only [Deque.own]
    split_ifs with heq
    · obtain ⟨hok, t, hsplit, rfl⟩ := h.popCas heq
      exact ⟨hok, .pop t rfl hsplit⟩
    · obtain ⟨hbottom, -, hle, -⟩ := h.phase
      exact ⟨⟨h.top_le, h.drift, h.room, h.content, hbottom,
        Nat.lt_of_le_of_ne hle (Ne.symm heq)⟩, .go _ rfl rfl⟩
  · obtain ⟨rfl, -⟩ := h.phase
    exact ⟨⟨h.top_le, h.drift, h.room, h.content, trivial⟩, .empty rfl rfl⟩

/-- The owner starts a push that it has found room for: the deque has not drifted, or the
difference of the counters would be next to the largest `size_t`. -/
theorem Ok.write_of_room (h : dq.Ok none) (hroom : sizeSub dq.bottom dq.top < dequeCap) (t : T) :
    dq.Ok (some (.write t dq.bottom)) := by
  have hcap := dequeCap_lt_sizeMod
  have hwon : dq.won = false := by
    by_contra hcon
    have hdrift : dq.top = dq.bottom + 1 := h.drift (by simpa using hcon)
    rw [hdrift, sizeSub_succ] at hroom
    omega
  have hle : dq.top ≤ dq.bottom := h.top_le hwon
  have hlast : dq.bottom ≤ dq.top + dequeCap := h.room
  rw [sizeSub_of_le hle (by omega)] at hroom
  exact ⟨h.top_le, h.drift, h.room, h.content, rfl, hwon, by omega⟩

theorem Ok.pop (h : dq.Ok none) : dq.Ok (some .popBottom) :=
  ⟨h.top_le, h.drift, h.room, h.content, trivial⟩

theorem Ok.bottom_le_last (h : dq.Ok o) : dq.bottom ≤ dq.last o := by
  have hphase := h.phase
  rcases o with _ | _ | _ | _ | bottom | ⟨bottom, value⟩ | bottom
  case some.popTop => exact hphase ▸ Nat.le_succ _
  case some.popCas => exact hphase.1 ▸ Nat.le_succ _
  case some.popRestore => exact hphase.1 ▸ Nat.le_succ _
  all_goals exact le_rfl

/-- What a thief knows is about the top, the last position and the cell at the top. -/
theorem Seen.mono {dq' : Deque T} {o' : Option (Owner T)} {th : Thief T} (hs : dq.Seen o th)
    (htop : dq.top ≤ dq'.top)
    (hsame : dq'.top = dq.top → dq.top < dq.last o → dq.top < dq'.last o' ∧
      dq'.buf (dq.top % dequeCap) = dq.buf (dq.top % dequeCap)) : dq'.Seen o' th := by
  rcases th with _ | x | x | ⟨x, value⟩
  · trivial
  · exact le_trans hs htop
  · refine ⟨hs.1.trans htop, fun heq => ?_⟩
    have hx : x = dq.top := le_antisymm hs.1 (heq ▸ htop)
    subst hx
    exact (hsame heq.symm (hs.2 rfl)).1
  · refine ⟨hs.1.trans htop, fun heq => ?_⟩
    have hx : x = dq.top := le_antisymm hs.1 (heq ▸ htop)
    subst hx
    obtain ⟨hlt, hvalue⟩ := hs.2 rfl
    obtain ⟨hlt', hbuf⟩ := hsame heq.symm hlt
    exact ⟨hlt', hvalue.trans hbuf.symm⟩

/-- A step of the owner does not change what a thief knows. -/
theorem Seen.own {o : Owner T} {th : Thief T} (h : dq.Ok (some o)) (hs : dq.Seen (some o) th) :
    (dq.own o).1.Seen (dq.own o).2.owner th := by
  have hphase := h.phase
  rcases o with ⟨t, bottom⟩ | ⟨t, bottom⟩ | _ | bottom | ⟨bottom, value⟩ | bottom
  · obtain ⟨rfl, -, hroom⟩ := hphase
    refine hs.mono le_rfl fun _ hlt => ⟨hlt, Function.update_of_ne ?_ ..⟩
    exact mod_ne hlt hroom
  · obtain ⟨rfl, -⟩ := hphase
    exact hs.mono le_rfl fun _ hlt => ⟨Nat.lt_succ_of_lt hlt, rfl⟩
  · simp only [Deque.own]
    split_ifs with hzero
    · exact hs.mono le_rfl fun _ hlt => ⟨hlt, rfl⟩
    · refine hs.mono le_rfl fun _ hlt => ⟨?_, rfl⟩
      exact hlt.trans_eq (Nat.succ_pred_eq_of_ne_zero hzero).symm
  · have hbottom : bottom = dq.bottom := hphase
    simp only [Deque.own]
    split_ifs with hgt heq
    · exact hs.mono le_rfl fun _ hlt => ⟨hlt, rfl⟩
    · exact hs.mono le_rfl fun _ hlt => ⟨hlt, rfl⟩
    · exact hs.mono le_rfl fun _ _ => ⟨show dq.top < dq.bottom by omega, rfl⟩
  · simp only [Deque.own]
    split_ifs with heq
    · exact hs.mono (heq.le.trans (Nat.le_succ _)) fun hsame _ =>
        absurd (hsame.trans heq) (Nat.succ_ne_self _)
    · exact hs.mono le_rfl fun _ hlt => ⟨hlt, rfl⟩
  · obtain ⟨rfl, -⟩ := hphase
    exact hs.mono le_rfl fun _ hlt => ⟨hlt, rfl⟩

/-- Nor does the start of an operation of the owner. -/
theorem Seen.start {o : Owner T} {th : Thief T} (hs : dq.Seen none th)
    (hlast : dq.last (some o) = dq.bottom) : dq.Seen (some o) th :=
  hs.mono le_rfl fun _ hlt => ⟨hlt.trans_eq hlast.symm, rfl⟩

/-! ### Steps of a thief -/

/-- What a step of a thief does to the content: the oldest task is handed out, or nothing
happens. -/
inductive Robbed (dq dq' : Deque T) : ThiefNext T → Prop
  | steal (t : T) (h : dq.content = t :: dq'.content) : Robbed dq dq' (.got (some t))
  | go (th : Thief T) (h : dq' = dq) : Robbed dq dq' (.go th)
  | miss (h : dq' = dq) : Robbed dq dq' .miss

/-- A thief wins the exchange: it has read the oldest task. -/
theorem Ok.steal {value : Option T} (h : dq.Ok o) (hs : dq.Seen o (.cas dq.top value)) :
    Ok { dq with top := dq.top + 1, content := dq.content.tail } o ∧
      ∃ t, dq.content = t :: dq.content.tail ∧ value = some t := by
  obtain ⟨hlt, rfl⟩ := hs.2 rfl
  obtain ⟨t, ts, hcons, hbuf, hwon, hts⟩ := h.content_cons hlt
  have hsame : Deque.last { dq with top := dq.top + 1, content := dq.content.tail } o =
      dq.last o := by
    rcases o with _ | _ | _ | _ | _ | _ | _ <;> rfl
  have htail : dq.content.tail = ts := by rw [hcons, List.tail_cons]
  refine ⟨⟨fun _ => ?_, fun hdrift => ?_, ?_, ?_, ?_⟩, t, by rw [htail, hcons], hbuf⟩
  · exact hsame ▸ hlt
  · rw [show dq.won = true from hdrift] at hwon
    cases hwon
  · have := h.room
    rw [hsame]
    exact show dq.last o ≤ dq.top + 1 + dequeCap by omega
  · rw [hsame]
    exact (congrArg (List.map some) htail).trans hts
  · have hphase := h.phase
    rcases o with _ | ⟨t, bottom⟩ | ⟨t, bottom⟩ | _ | bottom | ⟨bottom, value⟩ | bottom
    · trivial
    · exact ⟨hphase.1, hphase.2.1, show bottom < dq.top + 1 + dequeCap by have := hphase.2.2; omega⟩
    · exact ⟨hphase.1, hphase.2.1,
        show bottom < dq.top + 1 + dequeCap by have := hphase.2.2.1; omega, hphase.2.2.2⟩
    · trivial
    · exact hphase
    · exact ⟨hphase.1, hphase.2.1, hphase.2.2.1.trans (Nat.le_succ _), hphase.2.2.2⟩
    · exact ⟨hphase.1, hphase.2.trans (Nat.lt_succ_self _)⟩

/-- **A step of a thief** keeps the deque in order and hands out its oldest task. -/
theorem Ok.rob {th : Thief T} (h : dq.Ok o) (hs : dq.Seen o th) :
    (dq.rob th).1.Ok o ∧ Robbed dq (dq.rob th).1 (dq.rob th).2 := by
  rcases th with _ | x | x | ⟨x, value⟩
  · exact ⟨h, .go _ rfl⟩
  · simp only [Deque.rob]
    split_ifs
    · exact ⟨h, .miss rfl⟩
    · exact ⟨h, .go _ rfl⟩
  · exact ⟨h, .go _ rfl⟩
  · simp only [Deque.rob]
    split_ifs with heq
    · subst heq
      obtain ⟨hok, t, hcons, rfl⟩ := h.steal hs
      exact ⟨hok, .steal t hcons⟩
    · exact ⟨h, .miss rfl⟩

/-- What a thief knows after its own step. -/
theorem Seen.rob {th th' : Thief T} (h : dq.Ok o) (hs : dq.Seen o th)
    (hnext : (dq.rob th).2 = .go th') : dq.Seen o th' := by
  rcases th with _ | x | x | ⟨x, value⟩
  · cases hnext
    exact le_rfl
  · simp only [Deque.rob] at hnext
    split_ifs at hnext with hge
    cases hnext
    refine ⟨hs, fun heq => ?_⟩
    have := h.bottom_le_last
    omega
  · cases hnext
    exact ⟨hs.1, fun heq => ⟨hs.2 heq, rfl⟩⟩
  · simp only [Deque.rob] at hnext
    split_ifs at hnext

/-- A step of a thief does not change what another one knows. -/
theorem Seen.rob_other {th th' : Thief T} (hs : dq.Seen o th) (hs' : dq.Seen o th') :
    (dq.rob th').1.Seen o th := by
  rcases th' with _ | x | x | ⟨x, value⟩
  · exact hs
  · simp only [Deque.rob]
    split_ifs <;> exact hs
  · exact hs
  · simp only [Deque.rob]
    split_ifs with heq
    · exact hs.mono (heq.le.trans (Nat.le_succ _)) fun hsame _ =>
        absurd (hsame.trans heq) (Nat.succ_ne_self _)
    · exact hs

/-! ### A deque at rest -/

/-- What is expected of a deque between the operations of its owner: the top is not past the
bottom, the tasks are those at the positions between, and the difference of the counters is their
number. -/
structure InOrder (dq : Deque T) : Prop where
  top_le : dq.top ≤ dq.bottom
  content : dq.content.map some = window dequeCap dq.buf dq.top (dq.bottom - dq.top)
  length : sizeSub dq.bottom dq.top = dq.content.length

/-- **A deque is in order unless its owner has ever won an exchange.** -/
theorem Ok.inOrder_iff (h : dq.Ok none) : dq.InOrder ↔ dq.won = false := by
  constructor
  · intro horder
    by_contra hcon
    have hdrift : dq.top = dq.bottom + 1 := h.drift (by simpa using hcon)
    have := horder.top_le
    omega
  · intro hwon
    have hle : dq.top ≤ dq.bottom := h.top_le hwon
    have hroom : dq.bottom ≤ dq.top + dequeCap := h.room
    have hcap := dequeCap_lt_sizeMod
    refine ⟨hle, h.content, ?_⟩
    rw [sizeSub_of_le hle (by omega), h.length_content]
    rfl

end Deque

end ZzLang.Aot

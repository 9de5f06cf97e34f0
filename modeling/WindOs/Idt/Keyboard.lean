import Mathlib.Data.List.Induction

namespace WindOs.Idt

/-! # The keyboard of keyboard.c

A key sends one byte when it goes down and one when it comes up; an extended key
sends 0xE0 before each of them.  `getchar` is called for every byte.
-/

def pressCapsLock : BitVec 8 := 0x3A#8
def pressLfShift : BitVec 8 := 0x2A#8
def pressRtShift : BitVec 8 := 0x36#8
def pressCtrl : BitVec 8 := 0x1D#8
def releaseLfShift : BitVec 8 := 0xAA#8
def releaseRtShift : BitVec 8 := 0xB6#8
def doubleKey : BitVec 8 := 0xE0#8
def releaseCtrl : BitVec 8 := 0x9D#8

/-- The flags of keyboard.c, which are 0 or 1. -/
structure Keyboard where
  doubleKeyOn : Bool
  isLfShiftPressed : Bool
  isRtShiftPressed : Bool
  isLfCtrlPressed : Bool
  isRtCtrlPressed : Bool
  isCapslockPressed : Bool
deriving DecidableEq, Repr

def codes (text : String) : List (BitVec 8) := text.toList.map fun c => BitVec.ofNat 8 c.toNat

/-- `keyboard_origin`, which is 0 behind these entries. -/
def keyboardOrigin : List (BitVec 8) :=
  [0#8] ++ codes "1234567890-=\x08" ++
    codes "\tqwertyuiop[]\n" ++
    [0#8] ++ codes "asdfghjkl;'`" ++ [0#8] ++ codes "\\" ++
    codes "zxcvbnm,./" ++ [0#8] ++ [0#8, 0#8] ++ codes " "

def keyboardShift : List (BitVec 8) :=
  [0#8] ++ codes "!@#$%^&*()_+\x08" ++
    codes "\tQWERTYUIOP\x7b\x7d\n" ++
    [0#8] ++ codes "ASDFGHJKL:\"~" ++ [0#8] ++ codes "|" ++
    codes "ZXCVBNM<>?" ++ [0#8] ++ [0#8, 0#8] ++ codes " "

namespace Keyboard

/-- Before the first interrupt. -/
def initial : Keyboard := ⟨false, false, false, false, false, false⟩

/-- The `switch` of `getchar`. -/
def pressed (kbd : Keyboard) (c : BitVec 8) : Keyboard :=
  if c = pressCapsLock then { kbd with isCapslockPressed := !kbd.isCapslockPressed }
  else if c = pressLfShift then { kbd with isLfShiftPressed := true }
  else if c = pressRtShift then { kbd with isRtShiftPressed := true }
  else if c = pressCtrl then
    if !kbd.doubleKeyOn then { kbd with isLfCtrlPressed := true }
    else { kbd with isRtCtrlPressed := true }
  else if c = releaseLfShift then { kbd with isLfShiftPressed := false }
  else if c = releaseRtShift then { kbd with isRtShiftPressed := false }
  else if c = doubleKey then { kbd with doubleKeyOn := true }
  else if c = releaseCtrl then
    let kbd := if !kbd.doubleKeyOn then { kbd with isLfCtrlPressed := false }
      else { kbd with isRtCtrlPressed := false }
    { kbd with doubleKeyOn := false }
  else kbd

/-- `getchar` when `get_raw_msg` returned `c`. -/
def getchar (kbd : Keyboard) (c : BitVec 8) : BitVec 8 × Keyboard :=
  let kbd := kbd.pressed c
  let shift := kbd.isLfShiftPressed || kbd.isRtShiftPressed
  let table := if kbd.isCapslockPressed then
      if shift then keyboardOrigin else keyboardShift
    else if shift then keyboardShift else keyboardOrigin
  (table.getD (c.toNat - 1) 0#8, kbd)

/-- The keyboard after the bytes of a stream; `get_raw_msg` waits while it reads 0. -/
def readAll (kbd : Keyboard) : List (BitVec 8) → Keyboard
  | [] => kbd
  | c :: port => if c = 0#8 then kbd.readAll port else (kbd.getchar c).2.readAll port

end Keyboard

/-- The code of a key other than the two ctrl keys, down or up. -/
structure KeyCode where
  code : BitVec 8
  sent : code ≠ 0#8
  notPrefix : code ≠ doubleKey
  notCtrl : code ≠ pressCtrl ∧ code ≠ releaseCtrl

inductive KeyEvent where
  | ordinary (key : KeyCode)
  | extended (key : KeyCode)
  | lfCtrl (down : Bool)
  | rtCtrl (down : Bool)

def ctrlCode (down : Bool) : BitVec 8 := if down then pressCtrl else releaseCtrl

def KeyEvent.bytes : KeyEvent → List (BitVec 8)
  | .ordinary key => [key.code]
  | .extended key => [doubleKey, key.code]
  | .lfCtrl down => [ctrlCode down]
  | .rtCtrl down => [doubleKey, ctrlCode down]

/-- Whether the left ctrl key is down after some events. -/
def lfHeld (events : List KeyEvent) : Bool :=
  events.foldl (fun held event => match event with | .lfCtrl down => down | _ => held) false

def rtHeld (events : List KeyEvent) : Bool :=
  events.foldl (fun held event => match event with | .rtCtrl down => down | _ => held) false

/-- An extended key was used or the right ctrl key pressed, and no ctrl key has come
up since. -/
def pending (events : List KeyEvent) : Bool :=
  events.foldl (fun waiting event => match event with
    | .ordinary _ => waiting
    | .extended _ => true
    | .lfCtrl down => waiting && down
    | .rtCtrl down => down) false

/-- The keyboard after some events. -/
def after (events : List KeyEvent) : Keyboard :=
  Keyboard.initial.readAll (events.flatMap KeyEvent.bytes)

/-- The two flags say which ctrl keys are down. -/
def Tracked (events : List KeyEvent) : Prop :=
  (after events).isLfCtrlPressed = lfHeld events ∧ (after events).isRtCtrlPressed = rtHeld events

/-- A left ctrl key that moves while a prefix is pending only repeats what both ctrl
keys already are. -/
def Harmless (before : List KeyEvent) (event : KeyEvent) : Prop :=
  ∀ down, event = .lfCtrl down → pending before = true →
    lfHeld before = down ∧ rtHeld before = down

variable {kbd : Keyboard} {events : List KeyEvent} {event : KeyEvent} {c : BitVec 8}

namespace Keyboard

theorem readAll_append (first second : List (BitVec 8)) :
    kbd.readAll (first ++ second) = (kbd.readAll first).readAll second := by
  induction first generalizing kbd with
  | nil => rfl
  | cons c first ih =>
      simp only [List.cons_append, readAll]
      split
      · exact ih
      · exact ih

theorem readAll_one (sent : c ≠ 0#8) : kbd.readAll [c] = kbd.pressed c := by
  simp [readAll, sent, getchar]

/-- The code of another key leaves the two ctrl keys and the prefix. -/
theorem pressed_key (key : KeyCode) : (kbd.pressed key.code).doubleKeyOn = kbd.doubleKeyOn ∧
    (kbd.pressed key.code).isLfCtrlPressed = kbd.isLfCtrlPressed ∧
    (kbd.pressed key.code).isRtCtrlPressed = kbd.isRtCtrlPressed := by
  simp only [pressed, if_neg key.notPrefix, if_neg key.notCtrl.1, if_neg key.notCtrl.2]
  split
  · exact ⟨rfl, rfl, rfl⟩
  split
  · exact ⟨rfl, rfl, rfl⟩
  split
  · exact ⟨rfl, rfl, rfl⟩
  split
  · exact ⟨rfl, rfl, rfl⟩
  split
  · exact ⟨rfl, rfl, rfl⟩
  · exact ⟨rfl, rfl, rfl⟩

theorem pressed_doubleKey : kbd.pressed doubleKey = { kbd with doubleKeyOn := true } := rfl

/-- A ctrl code is taken for that of the right key while the prefix is on, and the
prefix goes with the key that comes up. -/
theorem pressed_ctrl (down : Bool) : kbd.pressed (ctrlCode down) =
    { kbd with
      doubleKeyOn := kbd.doubleKeyOn && down
      isLfCtrlPressed := if kbd.doubleKeyOn then kbd.isLfCtrlPressed else down
      isRtCtrlPressed := if kbd.doubleKeyOn then down else kbd.isRtCtrlPressed } := by
  obtain ⟨on, lfShift, rtShift, lfCtrl, rtCtrl, capslock⟩ := kbd
  cases down <;> cases on <;> rfl

theorem ctrlCode_ne_zero (down : Bool) : ctrlCode down ≠ 0#8 := by
  cases down <;> decide

theorem readAll_pair (sent : c ≠ 0#8) :
    kbd.readAll [doubleKey, c] = { kbd with doubleKeyOn := true }.pressed c := by
  have code : doubleKey ≠ 0#8 := by decide
  simp [readAll, sent, getchar, code, pressed_doubleKey]

/-- What the bytes of an event do to the prefix and the two ctrl flags. -/
theorem readAll_event (kbd : Keyboard) (event : KeyEvent) :
    (kbd.readAll event.bytes).doubleKeyOn = (match event with
      | .ordinary _ => kbd.doubleKeyOn
      | .extended _ => true
      | .lfCtrl down => kbd.doubleKeyOn && down
      | .rtCtrl down => down) ∧
    (kbd.readAll event.bytes).isLfCtrlPressed = (match event with
      | .lfCtrl down => if kbd.doubleKeyOn then kbd.isLfCtrlPressed else down
      | _ => kbd.isLfCtrlPressed) ∧
    (kbd.readAll event.bytes).isRtCtrlPressed = (match event with
      | .lfCtrl down => if kbd.doubleKeyOn then down else kbd.isRtCtrlPressed
      | .rtCtrl down => down
      | _ => kbd.isRtCtrlPressed) := by
  cases event with
  | ordinary key =>
      rw [KeyEvent.bytes, readAll_one key.sent]
      exact pressed_key key
  | extended key =>
      rw [KeyEvent.bytes, readAll_pair key.sent]
      exact pressed_key key
  | lfCtrl down =>
      rw [KeyEvent.bytes, readAll_one (ctrlCode_ne_zero down), pressed_ctrl]
      exact ⟨rfl, rfl, rfl⟩
  | rtCtrl down =>
      rw [KeyEvent.bytes, readAll_pair (ctrlCode_ne_zero down), pressed_ctrl]
      simp

end Keyboard

theorem after_append : after (events ++ [event]) = (after events).readAll event.bytes := by
  simp [after, Keyboard.readAll_append]

theorem lfHeld_append : lfHeld (events ++ [event]) = (match event with
    | .lfCtrl down => down
    | _ => lfHeld events) :=
  List.foldl_append

theorem rtHeld_append : rtHeld (events ++ [event]) = (match event with
    | .rtCtrl down => down
    | _ => rtHeld events) :=
  List.foldl_append

theorem pending_append : pending (events ++ [event]) = (match event with
    | .ordinary _ => pending events
    | .extended _ => true
    | .lfCtrl down => pending events && down
    | .rtCtrl down => down) :=
  List.foldl_append

/-- The prefix stays on until a ctrl key comes up. -/
theorem doubleKeyOn_after (events : List KeyEvent) : (after events).doubleKeyOn = pending events := by
  induction events using List.reverseRecOn with
  | nil => rfl
  | append_singleton events event ih =>
      rw [after_append, (Keyboard.readAll_event _ event).1, ih, pending_append]

theorem tracked_append (tracked : Tracked events) :
    Tracked (events ++ [event]) ↔ Harmless events event := by
  obtain ⟨-, left, right⟩ := Keyboard.readAll_event (after events) event
  rw [doubleKeyOn_after, tracked.1] at left
  rw [doubleKeyOn_after, tracked.2] at right
  rw [Tracked, after_append, left, right, lfHeld_append, rtHeld_append]
  cases event with
  | ordinary key => simp [Harmless]
  | extended key => simp [Harmless]
  | rtCtrl down => simp [Harmless]
  | lfCtrl down =>
      cases waiting : pending events with
      | false => simp [Harmless, waiting]
      | true =>
          simp only [if_true, Harmless, waiting, KeyEvent.lfCtrl.injEq, forall_eq', forall_const]
          exact and_congr_right fun _ => eq_comm

/-- The ctrl flags are right after every event exactly when the left ctrl key never
moves while the prefix of an earlier key is still pending, except to repeat what both
ctrl keys already are. -/
theorem modifiers_tracked_iff (events : List KeyEvent) :
    (∀ count ≤ events.length, Tracked (events.take count)) ↔
      ∀ count event, events[count]? = some event → Harmless (events.take count) event := by
  have extended : ∀ count event, events[count]? = some event →
      events.take (count + 1) = events.take count ++ [event] := by
    intro count event found
    rw [List.take_add_one, found]
    rfl
  constructor
  · intro tracks count event found
    have inside : count < events.length := (List.getElem?_eq_some_iff.mp found).1
    rw [← tracked_append (tracks count (Nat.le_of_lt inside)), ← extended count event found]
    exact tracks (count + 1) inside
  · intro harmless count
    induction count with
    | zero => exact fun _ => ⟨rfl, rfl⟩
    | succ count ih =>
        intro inside
        have found : events[count]? = some events[count] := List.getElem?_eq_getElem inside
        rw [extended count _ found, tracked_append (ih (Nat.le_of_succ_le inside))]
        exact harmless count _ found

/-- The up arrow key, going down. -/
def upKey : KeyCode := ⟨0x48#8, by decide, by decide, by decide⟩

/-- An arrow key, and then the left ctrl key. -/
theorem arrow_turns_left_ctrl_right :
    ¬ ∀ count ≤ 2, Tracked ([.extended upKey, .lfCtrl true].take count) := by
  intro tracks
  exact absurd (tracks 2 (Nat.le_refl 2)).1 (by decide)

end WindOs.Idt

import PigOS.Crypto.Discord
import PigOS.Shell.Dispatch

/-!
# `Crypto.DiscordChat` — the chat screen, `disc_chat_run`

The loop takes keys and, every 500000 rounds, asks for the messages anew. Two places write to
`disc_messages`: the parser of a response, and the key Enter, which appends the line that was typed.

- The messages are a `Buffer`; nothing stops a write behind the array.
- A round of the outer loop is a number of keys and then an input `poll`, with the response to the
  request that is made if one is due (`none` if it fails). Opening the screen comes with such a
  response, too.
- What is drawn and what is sent is left out: nothing here depends on it.
-/

namespace PigOS.Crypto

open Kernel Shell

def vgaH : Int := 25

inductive ChatMode where
  | closed
  | open
  /-- Escape was pressed, and the round is not over. -/
  | closing
  deriving DecidableEq

structure Chat where
  messages : Buffer UInt8
  nmessages : Nat
  msgScroll : Int
  mode : ChatMode
  input : Nat → UInt8
  inputLen : Nat
  inputCur : Nat
  pollCount : Nat

/-- The globals as the kernel starts, with the screen not open. -/
def bootChat : Chat := ⟨Buffer.fresh fun _ => 0, 0, 0, .closed, fun _ => 0, 0, 0, 0⟩

namespace Chat

/-- `disc_msg_scroll=disc_nmessages-(VGA_H-4); if(disc_msg_scroll<0) disc_msg_scroll=0;` -/
def scrollToEnd (s : Chat) : Chat :=
  { s with msgScroll := if s.nmessages - (vgaH - 4) < 0 then 0 else s.nmessages - (vgaH - 4) }

/-- `disc_get_messages`. -/
def getMessages {ν : Type} (acc : Accessors ν) (s : Chat) : Option ν → Chat
  | none => s
  | some root =>
    let (n, messages) := discParseMessages acc root s.messages
    { s with messages := messages, nmessages := n }.scrollToEnd

/-! ## Keys -/

/-- The line that was typed, as `kcp` copies it once `input[input_len]` is 0. -/
def line (s : Chat) : CStr := Cells.textAt 0 (Function.update s.input s.inputLen 0) 256 0

/-- Enter, on a line that is not empty: the line is appended to the messages. -/
def send (s : Chat) : Chat :=
  let start := s.nmessages * messageSize
  let messages := s.messages.writeAll (start + 128) ((cstr "You").map Subtype.val ++ [0])
  let messages := messages.writeAll (start + 256) (s.line.map Subtype.val ++ [0])
  { s with
    messages := messages
    nmessages := s.nmessages + 1
    input := Function.update (Function.update s.input s.inputLen 0) 0 0
    inputLen := 0
    inputCur := 0 }.scrollToEnd

def backspace (s : Chat) : Chat :=
  let input := Cells.shiftDown (s.inputCur - 1) (s.inputLen - s.inputCur) s.input
  { s with
    input := Function.update input (s.inputLen - 1) 0
    inputLen := s.inputLen - 1
    inputCur := s.inputCur - 1 }

def insert (s : Chat) (c : UInt8) : Chat :=
  let input := if s.inputCur < s.inputLen then Cells.shiftUp s.inputCur s.inputLen s.input else s.input
  { s with
    input := Function.update (Function.update input s.inputCur c) (s.inputLen + 1) 0
    inputLen := s.inputLen + 1
    inputCur := s.inputCur + 1 }

/-- One key of an open screen. -/
def key (s : Chat) (c : Int) : Chat :=
  if c = 27 then { s with mode := .closing }
  else if c = keyUp then if 0 < s.msgScroll then { s with msgScroll := s.msgScroll - 1 } else s
  else if c = keyDown then
    if s.msgScroll < s.nmessages - (vgaH - 4) then { s with msgScroll := s.msgScroll + 1 } else s
  else if c = keyLeft then if 0 < s.inputCur then { s with inputCur := s.inputCur - 1 } else s
  else if c = keyRight then if s.inputCur < s.inputLen then { s with inputCur := s.inputCur + 1 } else s
  else if c = 10 ∨ c = 13 then if 0 < s.inputLen then s.send else s
  else if c = 8 ∨ c = 127 then if 0 < s.inputCur then s.backspace else s
  else if 32 ≤ c ∧ c < 127 ∧ s.inputLen < 255 then s.insert (UInt8.ofNat c.toNat)
  else s

/-! ## The loop -/

/-- `disc_chat_run` up to the loop. -/
def start {ν : Type} (acc : Accessors ν) (s : Chat) (resp : Option ν) : Chat :=
  { s.getMessages acc resp with mode := .open, input := fun _ => 0, inputLen := 0, inputCur := 0, pollCount := 0 }

/-- `poll_count++; if(poll_count>500000){…}` -/
def refresh {ν : Type} (acc : Accessors ν) (s : Chat) (resp : Option ν) : Chat :=
  if 500000 < s.pollCount + 1 then { s with pollCount := 0 }.getMessages acc resp
  else { s with pollCount := s.pollCount + 1 }

/-- The end of a round, and of the loop after Escape. -/
def poll {ν : Type} (acc : Accessors ν) (s : Chat) (resp : Option ν) : Chat :=
  let s := s.refresh acc resp
  if s.mode = .closing then { s with mode := .closed } else s

end Chat

/-- What happens to the screen. -/
inductive ChatInput (ν : Type) where
  | start (resp : Option ν)
  | key (c : Int)
  | poll (resp : Option ν)

/-- One input. The screen is opened when it is closed; keys go to an open screen. -/
def chatStep {ν : Type} (acc : Accessors ν) (s : Chat) : ChatInput ν → Unit × Chat
  | .start resp => ((), if s.mode = .closed then s.start acc resp else s)
  | .key c => ((), if s.mode = .open then s.key c else s)
  | .poll resp => ((), if s.mode = .closed then s else s.poll acc resp)

end PigOS.Crypto

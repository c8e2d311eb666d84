import PigOS.Lib.LineScan
import PigOS.Shell.Dispatch
import PigOS.Shell.FsCommands

/-!
# `Shell.Config` — the configuration file `/etc/pigos.conf`

`mcfg_save` and `mcfg_load` of `shell/menuconfig.h` write and read the file, and `rt_cfg` of
`kernel/kernel.c` asks it for one key at boot. The two readers are loops of the same shape
(`LineScan.scan`) around a handler for a line. Every byte that a handler reads goes through `peek`,
which has the bytes up to the terminator of the file and nothing behind it. The values of the items
only ever hold 0 and 1; their labels, which only the screen shows, are left out.
-/

namespace PigOS.Shell
namespace Conf

open Kernel LineScan

def mcfgPath : CStr := cstr "/etc/pigos.conf"

structure MCfgItem where
  key : CStr
  val : Bool
  deriving DecidableEq

def mcfgKeyNames : List String := [
  "BOOT_SPLASH", "BOOT_VERBOSE", "VGA_DRIVER", "PS2_KEYBOARD", "PS2_MOUSE", "NET_RTL8139", "NET_E1000", "NET_VIRTIO",
  "LWIP", "LWIP_TCP", "LWIP_UDP", "LWIP_ICMP", "LWIP_DNS", "LWIP_DHCP", "PIGFS", "PIGFS_PERSIST",
  "HEAP_ALLOC", "PIGSSL",
  "POING", "USERS", "LARPSHELL", "PIGWM", "VDM", "PIGLOG"]

/-- The keys of `mcfg_items`, in the order of the table. -/
def mcfgKeys : List CStr := mcfgKeyNames.map cstr

/-- `mcfg_items` as linked: everything is enabled. -/
def mcfgItems : List MCfgItem := mcfgKeys.map (fun k => ⟨k, true⟩)

/-! ## Writing -/

def config : CStr := cstr "CONFIG_"

def mcfgHeader : CStr :=
  cstr "# pigOS Kernel Configuration\n# Generated by menuconfig\n# Changes apply on next reboot\n\n"

def mcfgItemText (it : MCfgItem) : CStr :=
  config ++ it.key ++ (if it.val then cstr "=y" else cstr " is not set") ++ [newline]

/-- What `mcfg_save` builds in `mcfg_buf`. -/
def mcfgText (items : List MCfgItem) : CStr := mcfgHeader ++ items.flatMap mcfgItemText

lemma length_take_lt (s : CStr) : (s.take 2047).length < contentField :=
  Nat.lt_of_le_of_lt (List.length_take_le _ _) (by decide)

/-- What it copies of it: `pos < 2047 ? pos : 2047` bytes. -/
def mcfgContent (items : List MCfgItem) : Content := ⟨(mcfgText items).take 2047, length_take_lt _⟩

/-- `mcfg_save` with the items as they are. -/
def saveItems (fs : Pigfs) (items : List MCfgItem) : Pigfs := mcfgSave fs (mcfgContent items)

/-! ## The menu -/

/-- The variables of `cmd_menuconfig`, and the file system. Only the screen reads `mcfg_scroll`. -/
structure Menu where
  items : List MCfgItem
  /-- `mcfg_cursor` -/
  cursor : Nat
  /-- `mcfg_dirty` -/
  dirty : Bool
  running : Bool
  fs : Pigfs

/-- `mcfg_save`: the flag is cleared whatever `memfs_create` returns. -/
def Menu.save (m : Menu) : Menu := { m with fs := saveItems m.fs m.items, dirty := false }

/-- The key that a round of the loop reads; what is typed before the screen is up again is
dropped. -/
def menuKey (m : Menu) (k : Int) : Menu :=
  if !m.running then m
  else if k = keyUp ∨ k = keyLeft then if 0 < m.cursor then { m with cursor := m.cursor - 1 } else m
  else if k = keyDown ∨ k = keyRight then if m.cursor < m.items.length - 1 then { m with cursor := m.cursor + 1 } else m
  else if k = 32 then
    { m with items := m.items.modify m.cursor (fun it => { it with val := !it.val }), dirty := true }
  else if k = 115 ∨ k = 83 then m.save
  else if k = 114 ∨ k = 82 then { m with items := m.items.map (fun it => { it with val := true }), dirty := true }
  else if k = 113 ∨ k = 81 then { m with running := false }
  else m

/-! ## Reading -/

/-- The text of the file; no text when there is no file. -/
def confText (fs : Pigfs) : CStr := (fileText fs mcfgPath).getD []

/-- `'\n'` or `'\r'`: with the terminator, the ends of lines. -/
def isEnd (b : CChar) : Bool := b = newline || b = chr '\r'

/-- `src[line_start+k]`, `none` behind the terminator. -/
def peek (src : CStr) (k : Nat) : Option UInt8 :=
  if k = src.length then some 0 else (src[k]?).map Subtype.val

/-- Comparisons `src[line_start+k+j] != s[j]` one after the other, up to the first that holds. -/
def matchAt (line : CStr) : Nat → CStr → Option Bool
  | _, [] => some true
  | k, c :: s => (peek line k).bind fun b => if b ≠ c then some false else matchAt line (k + 1) s

def hash : CChar := chr '#'

/-! ### `rt_cfg` -/

/-- The comparison with the key, which also stops at the end of the line. -/
def matchKey (line : CStr) (len : Nat) : Nat → CStr → Option Bool
  | _, [] => some true
  | k, c :: s =>
    if len ≤ k then some false
    else (peek line k).bind fun b => if b ≠ c then some false else matchKey line len (k + 1) s

/-- What `rt_cfg` does with a line: it returns, or goes on with the next one. -/
def rtLine (key : CStr) (_ : Unit) (line : CStr) (len : Nat) : Option (Unit ⊕ Bool) :=
  if len < 8 then some (.inl ())
  else (peek line 0).bind fun c =>
    if c = hash then some (.inl ())
    else (matchAt line 0 config).bind fun m =>
      if m = false then some (.inl ())
      else (matchKey line len 7 key).bind fun m =>
        if m = false then some (.inl ())
        else
          let after := 7 + key.length
          (if after < len then matchAt line after (cstr "=y") else some false).bind fun m =>
            if m then some (.inr true)
            else (if after + 10 ≤ len then matchAt line after (cstr " i") else some false).bind fun m =>
              if m then some (.inr false) else some (.inl ())

/-- `rt_cfg`: without a text everything is enabled. The `return 1` behind the loop is never
reached. -/
def rtCfg (fs : Pigfs) (key : CStr) : Outcome Unit Bool :=
  let src := confText fs
  if src = [] then .returned true else scan isEnd (rtLine key) () src 0 src

/-! ### `mcfg_load` -/

/-- `while(key_end < i && src[key_end] != '=' && src[key_end] != ' ')
key_end++`; `len` rounds are enough. -/
def keyEnd (line : CStr) (len : Nat) : Nat → Nat → Option Nat
  | 0, k => some k
  | n + 1, k =>
    if len ≤ k then some k
    else (peek line k).bind fun b => if b = equalSign ∨ b = space then some k else keyEnd line len n (k + 1)

/-- The first item with the key between `keyStart` and `keyEnd` gets the value. -/
def mcfgAssign (line : CStr) (c : UInt8) (keyStart keyEnd : Nat) : List MCfgItem → Option (List MCfgItem)
  | [] => some []
  | it :: items =>
    (if keyEnd - keyStart = it.key.length then matchAt line keyStart it.key else some false).bind fun m =>
      if m then
        (if c = hash then some false else matchAt line keyEnd (cstr "=y")).map fun v => { it with val := v } :: items
      else (mcfgAssign line c keyStart keyEnd items).map (it :: ·)

/-- What `mcfg_load` does with a line. -/
def mcfgLine (items : List MCfgItem) (line : CStr) (len : Nat) : Option (List MCfgItem ⊕ List MCfgItem) :=
  if len < 8 then some (.inl items)
  else (peek line 0).bind fun c =>
    let keyOffset := if c = hash then 2 else 0
    (matchAt line keyOffset config).bind fun m =>
      if m = false then some (.inl items)
      else
        let keyStart := keyOffset + 7
        (keyEnd line len len keyStart).bind fun keyEnd => (mcfgAssign line c keyStart keyEnd items).map .inl

/-- `mcfg_load`. It returns only where there is no text. -/
def mcfgLoad (fs : Pigfs) (items : List MCfgItem) : Outcome (List MCfgItem) (List MCfgItem) :=
  let src := confText fs
  if src = [] then .returned items else scan isEnd mcfgLine items src 0 src

end Conf
end PigOS.Shell

import MiniPi.Env.Flags
import MiniPi.Env.ImportBuffer

/-!
# The environment of `fw_setenv`

`tools/env/fw_env.c` edits the text of an environment in place.  The text is an array of `ENV_SIZE`
bytes, and a read or a write that misses it gives `none`; so does a loop that makes more turns than
the array has bytes.
-/

namespace MiniPi.FwEnv

open Env

/-- What `fw_env_write` asks for outside of the text: `env_flags_validate_varaccess`, for the text,
the name and the mask, and `fw_getdefenv`. -/
structure Checks where
  denied : Str → Str → ℕ → Bool
  getdefenv : Str → Option Str

/-- `envmatch`: `s1` is a string without its NUL, and `s2` a place in the text. -/
def envmatch (data : Str) : Str → ℕ → Option (Option ℕ)
  | [], s2 => do
    let c ← data[s2]?
    -- the loop would run on behind both strings
    if c = nul then none else some (if c = chr '=' then some (s2 + 1) else none)
  | a :: s1, s2 => do
    let c ← data[s2]?
    if a = c then if a = chr '=' then some (some (s2 + 1)) else envmatch data s1 (s2 + 1)
    else some none

/-- The search of `fw_getenv` and of `fw_env_write`: the value, `env` and `nxt`.  The inner loop
tests for the end of the text behind the read that it is for, so that the test never fails here. -/
def search (data name : Str) : ℕ → ℕ → ℕ → Option (Option ℕ × ℕ × ℕ)
  | 0, _, _ => none
  | fuel + 1, env, nxt => do
    let c ← data[env]?
    if c = nul then some (none, env, nxt)
    else
      let nxt ← skipWhile (· != nul) data data.length env
      match ← envmatch data name env with
      | some val => some (some val, env, nxt)
      | none => search data name fuel (nxt + 1) nxt

/-- `fw_getenv`. -/
def fwGetenv (data name : Str) : Option (Option Str) := do
  let (val, _, _) ← search data name (data.length + 1) 0 0
  match val with
  | some val => (cString data val).map some
  | none => some none

/-- The loop of `fw_env_write` that shifts the text down: the text and `env`. -/
def shiftLoop : ℕ → Str → ℕ → ℕ → Option (Str × ℕ)
  | 0, _, _, _ => none
  | fuel + 1, data, env, nxt => do
    let c ← data[nxt]?
    let data ← putByte data env c
    if c = nul then
      let d ← data[nxt + 1]?
      if d = nul then some (data, env) else shiftLoop fuel data (env + 1) (nxt + 1)
    else shiftLoop fuel data (env + 1) (nxt + 1)

/-- The old entry is taken out; it starts at `env` and its NUL is at `nxt`. -/
def removeEntry (data : Str) (env nxt : ℕ) : Option Str := do
  let c ← data[nxt + 1]?
  if c = nul then
    let data ← putByte data env nul
    putByte data (env + 1) nul
  else
    let (data, env) ← shiftLoop data.length data env (nxt + 1)
    putByte data (env + 1) nul

/-- The loop that searches for the double NUL. -/
def findEnd (data : Str) : ℕ → ℕ → Option ℕ
  | 0, _ => none
  | fuel + 1, env => do
    let c ← data[env]?
    if c ≠ nul then findEnd data fuel (env + 1)
    else
      let d ← data[env + 1]?
      if d ≠ nul then findEnd data fuel (env + 1) else some env

/-- Bytes are stored one after the other, from `env` on. -/
def putBytes : Str → ℕ → Str → Option Str
  | data, _, [] => some data
  | data, env, c :: s => do
    let data ← putByte data env c
    putBytes data (env + 1) s

/-- `len`, which is an `int`. -/
def entryLen (name value : Str) : ℤ := ((name.length + 2 + value.length + 1 : ℕ) : ℤ).bmod (2 ^ 32)

/-- `name=value` and a double NUL are stored from `env` on. -/
def storeEntry (data : Str) (env : ℕ) (name value : Str) : Option Str := do
  let data ← putBytes data env (name ++ [nul])
  let env := env + name.length
  let data ← putByte data env (chr '=')
  let data ← putBytes data (env + 1) (value ++ [nul])
  let env := env + 1 + value.length
  putByte data (env + 1) nul

/-- The new definition is stored at `env`, if there is room: the result and the text. -/
def storeAt (data : Str) (env : ℕ) (name value : Str) : Option (ℤ × Str) :=
  if (data.length : ℤ) - env < entryLen name value then some (-1, data)
  else (storeEntry data env name value).map (0, ·)

/-- The new definition is appended at the end. -/
def appendEntry (data name value : Str) : Option (ℤ × Str) := do
  let env ← findEnd data data.length 0
  storeAt data (if 0 < env then env + 1 else env) name value

/-- An old value may be overwritten. -/
def mayOverwrite (checks : Checks) (data name : Str) (oldval : ℕ) : Option Bool :=
  if checks.denied data name preventOverwr then some false
  else if checks.denied data name preventNondefOverwr then
    (cString data oldval).map fun old ↦ old == (checks.getdefenv name).getD []
  else some true

/-- `fw_env_write`: the result and the text.  A NULL pointer for the value is `none`. -/
def fwEnvWrite (checks : Checks) (data name : Str) (value : Option Str) : Option (ℤ × Str) := do
  let (oldval, env, nxt) ← search data name (data.length + 1) 0 0
  let value := value.getD []
  match oldval with
  | some oldval =>
    if value = [] then
      if checks.denied data name preventDelete then some (-1, data)
      else
        let data ← removeEntry data env nxt
        some (0, data)
    else if ← mayOverwrite checks data name oldval then
      let data ← removeEntry data env nxt
      appendEntry data name value
    else some (-1, data)
  | none =>
    if value = [] then some (0, data)
    else if checks.denied data name preventCreate then some (-1, data)
    else appendEntry data name value

end MiniPi.FwEnv

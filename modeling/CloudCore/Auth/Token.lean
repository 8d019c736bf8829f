import CloudCore.Python.Json

/-!
# The API's tokens

`api/cc_token.py`: each token comes from the environment or from `api.env`.
There is no default for the master token: without one the API does not start.
-/

namespace CloudCore
namespace Auth

open Python

/-- Where tokens come from. -/
structure Env where
  /-- `os.environ`. -/
  environ : String → Option String
  /-- The text of `api.env`; `none` if reading it raises `OSError`. -/
  envFile : Option String

/-- The value of `name` on one line of `api.env`, if it is there. -/
def lineValue (name : String) (line : List Char) : Option String :=
  let line := stripBy isSpace line
  let key := line.takeWhile (· ≠ '=')
  match line.dropWhile (· ≠ '=') with
  | _ :: value =>
    if .ofList key = name then some (stripChars "'\"" (strip (.ofList value))) else none
  | [] => none

def fromFile (env : Env) (name : String) : String :=
  match env.envFile with
  | some text => ((splitlines text.toList).findSome? (lineValue name)).getD ""
  | none => ""

def get (env : Env) (name : String) : String :=
  match env.environ name with
  | some value => strip (if value ≠ "" then value else fromFile env name)
  | none => strip (fromFile env name)

def retired : List String := ["dev-token"]

def isRetired (token : String) : Bool := token ∈ retired

def masterToken (env : Env) : Except Exc String :=
  let token := get env "CLOUDCORE_API_TOKEN"
  if token = "" ∨ isRetired token ∧ env.environ "CLOUDCORE_ALLOW_DEV_TOKEN" ≠ some "1" then
    .error .runtimeError
  else .ok token

def labvmToken (env : Env) : String := get env "CLOUDCORE_LABVM_TOKEN"

def examplesToken (env : Env) : String := get env "CLOUDCORE_EXAMPLES_TOKEN"

theorem strip_strip (s : String) : strip (strip s) = strip s := by
  rw [strip, strip, String.toList_ofList, stripBy_stripBy]

theorem strip_get (env : Env) (name : String) : strip (get env name) = get env name := by
  unfold get
  split <;> exact strip_strip _

/-- The master token has no blanks around it, and it is not empty. -/
theorem masterToken_spec {env : Env} {token : String} (h : masterToken env = .ok token) :
    token ≠ "" ∧ strip token = token := by
  unfold masterToken at h
  dsimp only at h
  split at h
  · cases h
  · next hne =>
    cases h
    exact ⟨fun he => hne (.inl he), strip_get ..⟩

end Auth
end CloudCore

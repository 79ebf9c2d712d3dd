import Aquila.Go
import Aquila.Lib.Decimal

/-! `internal/nexec` and `executor`: a command is run by the supervisor `aquila-exec`, with limits that are options
    of it. Arguments are bytes. -/

namespace Aquila

namespace Nexec

def defaultTimeout : Duration := 5 * second

structure Spec where
  args : List (List UInt8)
  timeout : Int64 := 0
  memory : Int64 := 0
  netNone : Bool := false
deriving DecidableEq

/-- `strings.Join` with a blank. -/
def joined (args : List (List UInt8)) : List UInt8 := [32].intercalate args

def containsBytes (s sub : List UInt8) : Bool := s.tails.any fun t => sub.isPrefixOf t

/-- The timeout that `Run` uses. -/
def Spec.requested (spec : Spec) : Int64 := if spec.timeout ≤ 0 then Int64.ofInt defaultTimeout else spec.timeout

/-- `Duration.Milliseconds`. -/
def milliseconds (d : Int64) : Int64 := d / 1000000

/-- The arguments that `Run` gives to the supervisor. -/
def arguments (resultPath : List UInt8) (spec : Spec) : List (List UInt8) :=
  [bytes "--timeout-ms", bytes (itoa (milliseconds spec.requested).toInt), bytes "--result", resultPath] ++
  (if spec.memory > 0 then [bytes "--as-bytes", bytes (itoa spec.memory.toInt)] else []) ++
  (if spec.netNone then [bytes "--net", bytes "none"] else []) ++ bytes "--" :: spec.args

/-- What `Run` passes to the supervisor, when its context is open and it has found the supervisor and made the file
    for the result. A process is not started after the deadline of its context, nor with an argument that has a zero
    byte; then the file stays empty. -/
def run (resultPath : List UInt8) (spec : Spec) : Except String (List (List UInt8)) :=
  if spec.args = [] then .error "nexec: command required"
  else if containsBytes (joined spec.args) "docker.sock" then .error "nexec: docker.sock is forbidden"
  else if spec.requested + Int64.ofInt (2 * second) ≤ 0 ∨ (arguments resultPath spec).any (·.contains 0) then
    .error "nexec: result json: unexpected end of JSON input"
  else .ok (arguments resultPath spec)

end Nexec

namespace Executor

structure Limits where
  timeoutMs : Int := 5000
  asBytes : Nat := 64 * 1024 * 1024
  cpuSeconds : Int := 2
  nproc : Int := 64
  nofile : Int := 64
  netNone : Bool := false
deriving DecidableEq, Repr

/-- `parse_i`. -/
def parseI (s : List UInt8) : Option Int :=
  match Decimal.strtol s with
  | some (v, []) => if v < 0 ∨ v > 1000000000 then none else some v
  | _ => none

/-- `parse_u64`. -/
def parseU64 (s : List UInt8) : Option Nat :=
  match Decimal.strtoull s with
  | some (v, []) => some v
  | _ => none

/-- How the option loop of `main` ends. -/
inductive Outcome where
  | help
  | usage
  | run (lim : Limits) (resultPath : List UInt8) (cmd : List (List UInt8))
deriving DecidableEq, Repr

/-- The option loop of `main`, over the arguments after the name of the program. -/
def options (lim : Limits) (resultPath : List UInt8) : List (List UInt8) → Outcome
  | [] => .run lim resultPath []
  | a :: rest =>
    if a = bytes "--" then .run lim resultPath rest
    else if a = bytes "--help" ∨ a = bytes "-h" then .help
    else match rest with
      | [] => .usage
      | v :: rest =>
        if a = bytes "--net" then if v = bytes "none" then options { lim with netNone := true } resultPath rest
        else .usage
        else if a = bytes "--result" then options lim v rest
        else if a = bytes "--timeout-ms" then
          match parseI v with
          | some n => options { lim with timeoutMs := n } resultPath rest
          | none => .usage
        else if a = bytes "--as-bytes" then
          match parseU64 v with
          | some u => options { lim with asBytes := u } resultPath rest
          | none => .usage
        else if a = bytes "--cpu-seconds" then
          match parseI v with
          | some n => options { lim with cpuSeconds := n } resultPath rest
          | none => .usage
        else if a = bytes "--nproc" then
          match parseI v with
          | some n => options { lim with nproc := n } resultPath rest
          | none => .usage
        else if a = bytes "--nofile" then
          match parseI v with
          | some n => options { lim with nofile := n } resultPath rest
          | none => .usage
        else .usage

def main (args : List (List UInt8)) : Outcome := options {} [] args

/-- The time after which `run` kills the command, in milliseconds. -/
def wallLimit (lim : Limits) : Int := if lim.timeoutMs > 0 then lim.timeoutMs else 5000

end Executor

end Aquila

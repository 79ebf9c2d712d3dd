import Aquila.Go
import Aquila.Lib.Disk

/-! `internal/cas`: a store of objects under their digests, in a directory. Paths are relative to its root. -/

namespace Aquila.Cas
open Disk (Path Prog)

def text (b : List UInt8) : String := .ofList (b.map fun x => Char.ofNat x.toNat)

/-- `Digest.valid`. -/
def valid (d : List UInt8) : Bool := d.length = 64 && d.all fun c => (48 ≤ c && c ≤ 57) || (97 ≤ c && c ≤ 102)

/-- `Sum`: the hexadecimal digits of the `crypto/sha256` of some bytes. -/
structure Sha256 where
  sum : List UInt8 → List UInt8
  valid_sum : ∀ b, valid (sum b) = true

inductive Err where
  -- The error of the context.
  | canceled (e : String)
  | invalidDigest
  | notFound
  | corrupt
  -- An error of a system call.
  | system (e : String)
deriving DecidableEq, Repr

def Err.text : Err → String
  | canceled e => e
  | invalidDigest => "cas: invalid digest"
  | notFound => "cas: not found"
  | corrupt => "cas: corrupt"
  | system e => "cas: " ++ e

def path (id : List UInt8) : Path := ["objects", text (id.take 2), text id]

def readError (e : Option String) : String := e.getD "file does not exist"

/-- `Dir.Put`. -/
def put (sha : Sha256) (data : List UInt8) : Prog (Except Err (List UInt8)) :=
  .ask fun
  | some e => .ret (.error (.canceled e))
  | none =>
    let id := sha.sum data
    let dest := path id
    .stat dest fun
    | true =>
      (Prog.readFile dest).bind fun
      | .error e => .ret (.error (.system (readError e)))
      | .ok got => if sha.sum got ≠ id then .ret (.error .corrupt) else .ret (.ok id)
    | false =>
      .mkdirAll dest.dropLast fun
      | some e => .ret (.error (.system e))
      | none =>
        .createTemp dest.dropLast ".put-" fun
        | .error e => .ret (.error (.system e))
        | .ok (tmpName, tmp) =>
          .write tmp data fun
          | some e => .close tmp fun _ => .remove tmpName fun _ => .ret (.error (.system e))
          | none =>
            .close tmp fun
            | some e => .remove tmpName fun _ => .ret (.error (.system e))
            | none =>
              .rename tmpName dest fun
              | some e => .remove tmpName fun _ => .ret (.error (.system e))
              | none => .ret (.ok id)

/-- `Dir.Get`. -/
def get (sha : Sha256) (id : List UInt8) : Prog (Except Err (List UInt8)) :=
  .ask fun
  | some e => .ret (.error (.canceled e))
  | none =>
    if !valid id then .ret (.error .invalidDigest)
    else
      (Prog.readFile (path id)).bind fun
      | .error none => .ret (.error .notFound)
      | .error (some e) => .ret (.error (.system e))
      | .ok raw => if sha.sum raw ≠ id then .ret (.error .corrupt) else .ret (.ok raw)

end Aquila.Cas

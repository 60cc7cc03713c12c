import DShowServer.Framework.Getopt
import DShowServer.Framework.Numeral
import DShowServer.Framework.Shell

/-!
# The server's command line

MPlayer's client prints a line of options for `/bin/sh -c` into 255 characters
(`dshowserver.patch`), and the server's `main` reads them back in its loop over
`getopt_long` (`server.c`). A character is one byte of a C string.
-/

namespace DShow.Options

open Numeral Getopt Shell

/-- `DS_GUID`. -/
structure DsGuid where
  f1 : BitVec 32
  f2 : BitVec 16
  f3 : BitVec 16
  f4 : Vector (BitVec 8) 8
deriving DecidableEq

/-! ## The client -/

/-- What `init` of the client puts on the command line. -/
structure Client where
  dll : List Char
  w : BitVec 32
  h : BitVec 32
  guid : DsGuid
  format : BitVec 32
  bpp : BitVec 32
  outFmt : BitVec 32
  pid : BitVec 32
  id : BitVec 32
  numpages : BitVec 32
  port : BitVec 32
  dll_string : '\x00' ∉ dll

/-- `%08x-%04x-%04x-%02x%02x%02x%02x%02x%02x%02x%02x`. -/
def DsGuid.text (g : DsGuid) : List Char :=
  padded 8 g.f1.toNat ++ '-' :: padded 4 g.f2.toNat ++ '-' :: padded 4 g.f3.toNat ++
    '-' :: g.f4.toList.flatMap fun b => padded 2 b.toNat

namespace Client

variable (cl : Client)

/-- `sprintf(id, "%x", ...)`. -/
def idText : List Char := hex cl.id.toNat

/-- All that is printed; the last `%s` is for an empty string. -/
def line : List Char :=
  "dshowserver --codec ".toList ++ cl.dll ++
  " --size ".toList ++ decimal cl.w.toInt ++ "x".toList ++ decimal cl.h.toInt ++
  " --guid ".toList ++ cl.guid.text ++
  " --fourc 0x".toList ++ padded 8 cl.format.toNat ++
  " --bits ".toList ++ decimal cl.bpp.toInt ++
  " --outfmt 0x".toList ++ padded 8 cl.outFmt.toNat ++
  " --pid ".toList ++ decimal cl.pid.toInt ++
  " --id ".toList ++ cl.idText ++
  " --numpages ".toList ++ decimal cl.numpages.toInt ++
  " --port ".toList ++ decimal cl.port.toInt ++ " ".toList ++ [] ++ "&".toList

/-- What `snprintf(cmd, 255, ...)` leaves of it. -/
def cmd : List Char := cl.line.take 254

end Client

/-! ## The server -/

def longOptions : List LongOption := [
  ⟨"bits".toList, true, 'b'⟩,
  ⟨"codec".toList, true, 'c'⟩,
  ⟨"debug".toList, false, 'd'⟩,
  ⟨"fourcc".toList, true, 'f'⟩,
  ⟨"guid".toList, true, 'g'⟩,
  ⟨"id".toList, true, 'i'⟩,
  ⟨"checksum".toList, false, 'k'⟩,
  ⟨"numpages".toList, true, 'n'⟩,
  ⟨"outfmt".toList, true, 'o'⟩,
  ⟨"pid".toList, true, 'p'⟩,
  ⟨"size".toList, true, 's'⟩,
  ⟨"port".toList, true, 't'⟩,
  ⟨"config".toList, false, '\x00'⟩]

/-- The options of `main`, the short ones from `"b:c:df:g:i:n:o:p:s:t:"`. -/
def table : Table where
  short := [('b', true), ('c', true), ('d', false), ('f', true), ('g', true), ('i', true), ('n', true),
    ('o', true), ('p', true), ('s', true), ('t', true)]
  long := longOptions

/-- The variables that the options set. -/
structure Settings where
  width : BitVec 32 := 0
  height : BitVec 32 := 0
  pagecount : BitVec 32 := 0
  port : BitVec 32 := 0
  cksum : Bool := false
  config : Bool := false
  id : Option (List Char) := none
  codec : Option (List Char) := none
  guid : DsGuid := ⟨0, 0, 0, .replicate 8 0⟩
  fourcc : BitVec 32 := 0
  fmt : BitVec 32 := 0
  bits : BitVec 32 := 0
  ppid : BitVec 32 := 0
  printVerboseMessages : BitVec 32 := 0
deriving DecidableEq

/-- What `sscanf` assigns to a variable, if it gets that far. -/
def assigned {w : Nat} (values : List Int) (i : Nat) (x : BitVec w) : BitVec w :=
  (values[i]?.map (BitVec.ofInt w)).getD x

/-- `%dx%d`. -/
def sizeFormat : List Directive := [.int, .lit 'x', .int]

/-- `%8x-%4hx-%4hx-%2hhx%2hhx%2hhx%2hhx%2hhx%2hhx%2hhx%2hhx`. -/
def guidFormat : List Directive :=
  [.hex 8, .lit '-', .hex 4, .lit '-', .hex 4, .lit '-', .hex 2, .hex 2, .hex 2, .hex 2, .hex 2, .hex 2,
    .hex 2, .hex 2]

/-- A `long` into a variable of 32 bits. -/
def long (s : List Char) : BitVec 32 := BitVec.ofInt 32 (strtol s)

namespace Settings

/-- `sscanf` of a size. -/
def scanSize (o : Settings) (s : List Char) : Settings :=
  let values := sscanf sizeFormat s
  { o with width := assigned values 0 o.width, height := assigned values 1 o.height }

/-- `sscanf` of a GUID. -/
def scanGuid (o : Settings) (s : List Char) : Settings :=
  let values := sscanf guidFormat s
  { o with guid := {
      f1 := assigned values 0 o.guid.f1
      f2 := assigned values 1 o.guid.f2
      f3 := assigned values 2 o.guid.f3
      f4 := Vector.ofFn fun i => assigned values (3 + i) o.guid.f4[i] } }

/-- The body of the loop; `config` is the only option that returns 0. -/
def set (o : Settings) : Event → Settings
  | .error => o
  | .option c optarg =>
    let s := optarg.getD []
    match c with
    | '\x00' => { o with config := true }
    | 'i' => { o with id := optarg }
    | 'c' => { o with codec := optarg }
    | 'd' => { o with printVerboseMessages := 8 }
    | 's' => o.scanSize s
    | 'g' => o.scanGuid s
    | 'f' => { o with fourcc := long s }
    | 'o' => { o with fmt := long s }
    | 'b' => { o with bits := long s }
    | 'k' => { o with cksum := true }
    | 'n' => { o with pagecount := long s }
    | 'p' => { o with ppid := long s }
    | 't' => { o with port := long s }
    | _ => o

/-- The loop over the options of a command line. -/
def parse (argv : List (List Char)) : Settings := (table.events none argv.tail).foldl set {}

end Settings

/-! ## What is handed over -/

/-- The values that both sides know. -/
structure Values where
  codec : Option (List Char)
  width : BitVec 32
  height : BitVec 32
  fourcc : BitVec 32
  bits : BitVec 32
  outfmt : BitVec 32
  pid : BitVec 32
  id : Option (List Char)
  numpages : BitVec 32
  port : BitVec 32
deriving DecidableEq

/-- The values the server has. -/
def Settings.values (o : Settings) : Values where
  codec := o.codec
  width := o.width
  height := o.height
  fourcc := o.fourcc
  bits := o.bits
  outfmt := o.fmt
  pid := o.ppid
  id := o.id
  numpages := o.pagecount
  port := o.port

namespace Client

variable (cl : Client)

/-- The values the client has. -/
def values : Values where
  codec := some cl.dll
  width := cl.w
  height := cl.h
  fourcc := cl.format
  bits := cl.bpp
  outfmt := cl.outFmt
  pid := cl.pid
  id := some cl.idText
  numpages := cl.numpages
  port := cl.port

/-- Wherever the line is run, the server has the client's values. -/
def HandsOver : Prop := ∀ env, (Settings.parse (argv env cl.cmd)).values = cl.values

end Client

end DShow.Options

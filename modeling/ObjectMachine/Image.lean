import ObjectMachine.Machine

/-!
# Image headers

An image starts with twenty bytes: five big-endian words for a magic number, a
version, the number of objects, the number of globals and the root object.
-/

namespace ObjectMachine

structure ImageHeader where
  magic : UInt32
  version : UInt32
  objects : UInt32
  globals : UInt32
  root : UInt32
deriving DecidableEq, Repr

inductive ImageError where
  /-- The host could not read the file. -/
  | unreadable (reason : String)
  | tooSmall (length : Nat)
  | badMagic (found : UInt32)
  | unsupportedVersion (version : UInt32)
deriving DecidableEq, Repr

namespace ImageHeader

def imageMagic : UInt32 := 0x53544C50

def imageVersion : UInt32 := 1

def size : Nat := 20

def new (objects globals root : UInt32) : ImageHeader :=
  ⟨imageMagic, imageVersion, objects, globals, root⟩

def ofMachine (m : Machine) : ImageHeader :=
  new (UInt32.ofNat m.memory.objects.size) (UInt32.ofNat m.globals.size) 0

def toBytes (h : ImageHeader) : List UInt8 :=
  [h.magic, h.version, h.objects, h.globals, h.root].flatMap bigEndian

/-- The words that some bytes spell, as many as are whole. -/
def words : List UInt8 → List UInt32
  | a :: b :: c :: d :: rest => ofBigEndian a b c d :: words rest
  | _ => []

/-- Read and check the header at the front of `bytes`. -/
def parse (bytes : List UInt8) : Except ImageError ImageHeader :=
  match words (bytes.take size) with
  | [magic, version, objects, globals, root] =>
    if magic ≠ imageMagic then .error (.badMagic magic)
    else if version ≠ imageVersion then .error (.unsupportedVersion version)
    else .ok ⟨magic, version, objects, globals, root⟩
  | _ => .error (.tooSmall bytes.length)

/-- Read the header of a file with the given content. Only the bytes of a
header are looked at. -/
def load (content : List UInt8) : Except ImageError ImageHeader := parse (content.take size)

end ImageHeader

def ImageError.message : ImageError → String
  | unreadable reason => s!"cannot read image: {reason}"
  | tooSmall length => s!"image too small: {length} bytes, header needs {ImageHeader.size}"
  | badMagic found =>
    s!"not an image file: bad magic 0x{hexDigits 8 found.toNat}, " ++
      s!"expected 0x{hexDigits 8 ImageHeader.imageMagic.toNat}"
  | unsupportedVersion version =>
    s!"unsupported image version {version}, expected {ImageHeader.imageVersion}"

end ObjectMachine

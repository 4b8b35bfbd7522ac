import Fixity.Bytes

/-!
# Compressed frames

Documents can be compressed.  How they are is not fixed: any way will do that can undo what it does
and begins every frame with the magic number of the Zstandard format (`Compression`), by which frames
are told from plain documents.
-/

namespace Fixity

namespace Frame

def magic : Bytes := [0x28, 0xB5, 0x2F, 0xFD]

def isFrame (bs : Bytes) : Bool := magic.isPrefixOf bs

end Frame

/-- A way to put bytes into a frame and to take them out again, unless the frame is damaged. -/
structure Compression where
  compress : Bytes → Bytes
  decompress? : Bytes → Option Bytes
  isFrame_compress : ∀ bs, Frame.isFrame (compress bs) = true
  decompress?_compress : ∀ bs, decompress? (compress bs) = some bs

end Fixity

import Mathlib

set_option autoImplicit false

/-! Drawing (framebuffer.c). An `int` is an integer, and `(unsigned)` takes it modulo 2^32. -/
namespace TinyOS.Display

structure Color where
  r : UInt8
  g : UInt8
  b : UInt8
  deriving DecidableEq

/-- The calls to framebuffer.c that draw; strings are without their terminator. -/
inductive DrawCall where
  | clear (c : Color)
  | putPixel (x y : ℤ) (c : Color)
  | fillRect (x y w h : ℤ) (c : Color)
  | drawImage (x y w h : ℤ) (pixels : ℕ → Color)
  | drawChar (x y : ℤ) (ch : UInt8) (fg bg : Color)
  | drawString (x y : ℤ) (s : List UInt8) (fg bg : Color)
  | drawCharEx (x y : ℤ) (ch : UInt8) (fg bg : Color) (scale : ℤ) (transparent : Bool)
  | drawStringEx (x y : ℤ) (s : List UInt8) (fg bg : Color) (scale : ℤ) (transparent : Bool)
  | present

end TinyOS.Display

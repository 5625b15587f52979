namespace LineBasic

def word (low high : UInt8) : UInt16 :=
  UInt16.ofNat (low.toNat + 256 * high.toNat)

def wordBytes (w : UInt16) : List UInt8 :=
  [UInt8.ofNat (w.toNat % 256), UInt8.ofNat (w.toNat / 256)]

theorem length_wordBytes (w : UInt16) : (wordBytes w).length = 2 := rfl

theorem word_of_wordBytes (w : UInt16) :
    word (UInt8.ofNat (w.toNat % 256)) (UInt8.ofNat (w.toNat / 256)) = w := by
  have h : w.toNat < 65536 := w.toNat_lt
  apply UInt16.toNat_inj.1
  simp only [word, UInt16.toNat_ofNat', UInt8.toNat_ofNat']
  omega

theorem toNat_word_of_lt {n : Nat} (h : n < 65536) :
    (word (UInt8.ofNat (n % 256)) (UInt8.ofNat (n / 256))).toNat = n := by
  have hn : (UInt16.ofNat n).toNat = n := UInt16.toNat_ofNat_of_lt' h
  have hw := congrArg UInt16.toNat (word_of_wordBytes (UInt16.ofNat n))
  rwa [hn] at hw

end LineBasic

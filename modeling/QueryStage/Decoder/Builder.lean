import QueryStage.Decoder.Basic

/-!
# Building document decoders

Members and constructor parameters are declared one at a time, in any order.
-/

namespace QueryStage

inductive Declaration where
  | member (name element : String) (decoder : Decoder)
  | creatorParameter (name : String)

structure DecoderBuilder where
  typeName : String
  members : Entries MemberDecoder
  creator : List String

namespace DecoderBuilder

def new (typeName : String) : DecoderBuilder := ⟨typeName, [], []⟩

/-- A member that is declared again keeps its place and takes the new element and decoder. -/
def member (b : DecoderBuilder) (name element : String) (decoder : Decoder) : DecoderBuilder :=
  { b with members := b.members.insert name ⟨element, decoder⟩ }

def creatorParameter (b : DecoderBuilder) (name : String) : DecoderBuilder :=
  { b with creator := b.creator ++ [name] }

def declare (b : DecoderBuilder) : Declaration → DecoderBuilder
  | .member name element decoder => b.member name element decoder
  | .creatorParameter name => b.creatorParameter name

def declareAll (b : DecoderBuilder) (ds : List Declaration) : DecoderBuilder :=
  ds.foldl declare b

/-- With no declared parameter the constructor takes every member in order. -/
def build (b : DecoderBuilder) : DocumentDecoder where
  typeName := b.typeName
  members := b.members
  creator := if b.creator.isEmpty then b.members.keys else b.creator

end DecoderBuilder

end QueryStage
